import Tern.Tar

/-! The search in a well-formed archive: entry behind entry, each a header with the size in
octal and a content padded to whole blocks, and a zero header at the end. -/

namespace Tern

open Lib

structure TarEntry where
  name : List (BitVec 8)
  content : List (BitVec 8)
  name_ne : name ≠ []
  name_free : 0#8 ∉ name
  name_short : name.length < 100
  content_short : content.length < 8 ^ 11

/-- The bytes of an entry in the archive: its header and the blocks of its content. -/
def TarEntry.size (e : TarEntry) : Nat := 512 + roundUp e.content.length 512

/-- Octal digits whose number is `n`. -/
def OctalText (text : List (BitVec 8)) (n : Nat) : Prop :=
  text ≠ [] ∧ (∀ c ∈ text, 0x30#8 ≤ c ∧ c ≤ 0x37#8) ∧
    Nat.ofDigits 8 (text.map fun c => c.toNat - 0x30).reverse = n

/-- The fields that are not named here hold anything. -/
structure EntryAt (memory : Word → BitVec 8) (tar : Word) (e : TarEntry) : Prop where
  name : StringAt memory 0#8 tar e.name
  size : ∃ text, text.length < 12 ∧ OctalText text e.content.length ∧
    StringAt memory 0#8 (tar + tarSizeOffset) text
  content : ∀ i c, e.content[i]? = some c → memory (tar + 512#64 + BitVec.ofNat 64 i) = c

/-- The address of the header with this number. -/
def tarPlace (tar : Word) (entries : List TarEntry) (i : Nat) : Word :=
  tar + BitVec.ofNat 64 ((entries.take i).map TarEntry.size).sum

structure Archive (memory : Word → BitVec 8) (tar : Word) (entries : List TarEntry) : Prop where
  aligned : tar.toNat % 512 = 0
  fits : tar.toNat + (entries.map TarEntry.size).sum + 512 ≤ 2 ^ 64
  entry : ∀ i e, entries[i]? = some e → EntryAt memory (tarPlace tar entries i) e
  last : ∀ i < 512, memory (tarPlace tar entries entries.length + BitVec.ofNat 64 i) = 0#8

section

variable {memory : Word → BitVec 8} {fuel n : Nat} {p tar : Word} {e : TarEntry}
  {entries : List TarEntry} {name text : List (BitVec 8)}

/-! ## Sizes -/

theorem octal_digit : ∀ c : BitVec 8, 0x30#8 ≤ c ∧ c ≤ 0x37#8 →
    isDigit 8 c = true ∧ isspace c = false ∧ c ≠ 0x2D#8 ∧ c ≠ 0x2B#8 ∧
      digitValue c = c.toNat - 0x30 := by
  decide

/-- `strtol` reads octal digits as what they are. -/
theorem OctalText.value_eq (h : OctalText text n) : Numeral.value 8 text = n := by
  obtain ⟨hne, hdigits, hn⟩ := h
  obtain ⟨c, text, rfl⟩ := List.exists_cons_of_ne_nil hne
  obtain ⟨-, hspace, hminus, hplus, -⟩ := octal_digit c (hdigits c List.mem_cons_self)
  have hsigned : Numeral.signed (c :: text) = c :: text := List.dropWhile_cons_of_neg (by simp [hspace])
  have hnegative : Numeral.negative (c :: text) = false := by simp [Numeral.negative, hsigned, hminus]
  have hsign : Numeral.hasSign (c :: text) = false := by
    simp [Numeral.hasSign, hnegative, hsigned, hplus]
  have hbody : Numeral.body (c :: text) = c :: text := by rw [Numeral.body, hsign]; exact hsigned
  have hrun : Numeral.digits 8 (c :: text) = c :: text :=
    List.takeWhile_eq_self_iff.mpr fun d hd => (octal_digit d (hdigits d hd)).1
  have hvalues : (c :: text).map digitValue = (c :: text).map fun c => c.toNat - 0x30 :=
    List.map_congr_left fun d hd => (octal_digit d (hdigits d hd)).2.2.2.2
  rw [Numeral.value, hnegative, hbody, hrun, hvalues, if_neg Bool.false_ne_true, one_mul]
  exact congrArg Int.ofNat hn

theorem nextTar_eq (haligned : tar.toNat % 512 = 0) :
    nextTar tar (BitVec.ofNat 64 n) = tar + BitVec.ofNat 64 (512 + roundUp n 512) := by
  apply BitVec.eq_of_toNat_eq
  rw [nextTar_toNat, BitVec.toNat_add, BitVec.toNat_ofNat, BitVec.toNat_ofNat]
  simp only [roundUp]
  omega

/-! ## Entries -/

theorem tarPlace_zero (tar : Word) (entries : List TarEntry) : tarPlace tar entries 0 = tar :=
  BitVec.add_zero tar

theorem tarPlace_cons (tar : Word) (e : TarEntry) (entries : List TarEntry) (i : Nat) :
    tarPlace tar (e :: entries) (i + 1) = tarPlace (tar + BitVec.ofNat 64 e.size) entries i := by
  rw [tarPlace, tarPlace, List.take_succ_cons, List.map_cons, List.sum_cons, BitVec.ofNat_add,
    BitVec.add_assoc]

theorem TarEntry.size_dvd (e : TarEntry) : 512 ∣ e.size :=
  (Nat.dvd_add_right (dvd_refl 512)).mpr (Nat.dvd_mul_left 512 _)

namespace Archive

theorem tail (h : Archive memory tar (e :: entries)) :
    Archive memory (tar + BitVec.ofNat 64 e.size) entries := by
  have hfits := h.fits
  rw [List.map_cons, List.sum_cons] at hfits
  have hplace : (tar + BitVec.ofNat 64 e.size).toNat = tar.toNat + e.size := by
    rw [BitVec.toNat_add, BitVec.toNat_ofNat]
    omega
  refine ⟨?_, ?_, fun i e' hi => ?_, fun i hi => ?_⟩
  · rw [hplace, Nat.add_mod, h.aligned, Nat.mod_eq_zero_of_dvd e.size_dvd]
  · rw [hplace]
    omega
  · rw [← tarPlace_cons]
    exact h.entry (i + 1) e' hi
  · rw [← tarPlace_cons]
    exact h.last i hi

theorem head (h : Archive memory tar (e :: entries)) : EntryAt memory tar e := by
  have hentry := h.entry 0 e rfl
  rwa [tarPlace_zero] at hentry

/-- One round at the first entry. -/
theorem tarRound_eq (h : Archive memory tar (e :: entries)) (hname : StringAt memory 0#8 p name)
    (hfuel : 2 ^ 64 ≤ fuel) :
    tarRound memory fuel p tar = some (if e.name = name then .inl (tar + 512#64)
      else .inr (tar + BitVec.ofNat 64 e.size)) := by
  obtain ⟨text, -, hoctal, htext⟩ := h.head.size
  have hmem : memory tar ≠ 0#8 := by
    have hchar := h.head.name.head
    obtain ⟨c, rest, hcons⟩ := List.exists_cons_of_ne_nil e.name_ne
    rw [hcons, List.head?_cons, Option.getD_some] at hchar
    exact hchar ▸ h.head.name.ne_nul (hcons ▸ List.mem_cons_self)
  rw [Tern.tarRound_eq hmem h.head.name hname htext hfuel, hoctal.value_eq, BitVec.ofInt_natCast,
    nextTar_eq h.aligned, ← TarEntry.size]

/-- The search goes through the entries in order. -/
theorem findTarEntry_eq (h : Archive memory tar entries) (hname : StringAt memory 0#8 p name)
    (hfuel : 2 ^ 64 + entries.length < fuel) :
    findTarEntry memory fuel tar p =
      some (match entries.findIdx? (fun e => e.name = name) with
        | some i => tarPlace tar entries i + 512#64
        | none => 0#64) := by
  induction entries generalizing tar fuel with
  | nil =>
    obtain ⟨fuel, rfl⟩ := Nat.exists_eq_add_of_le' (Nat.zero_lt_of_lt hfuel)
    have hzero := h.last 0 (by decide)
    rw [List.length_nil, tarPlace_zero, BitVec.add_zero] at hzero
    exact findTarEntry_succ_of_result (tarRound_end hzero)
  | cons e entries ih =>
    obtain ⟨fuel, rfl⟩ := Nat.exists_eq_add_of_le' (Nat.zero_lt_of_lt hfuel)
    rw [List.length_cons] at hfuel
    have hround := h.tarRound_eq hname (show 2 ^ 64 ≤ fuel by omega)
    rw [List.findIdx?_cons]
    by_cases hfound : e.name = name
    · rw [if_pos hfound] at hround
      rw [findTarEntry_succ_of_result hround, if_pos (decide_eq_true hfound)]
      dsimp only
      rw [tarPlace_zero]
    · rw [if_neg hfound] at hround
      rw [findTarEntry_succ_of_next hround, ih h.tail (by omega), if_neg (by simpa using hfound)]
      cases entries.findIdx? (fun e => e.name = name) with
      | none => rfl
      | some i => exact congrArg (fun q => some (q + 512#64)) (tarPlace_cons tar e entries i).symm

/-- No content is at address zero. -/
theorem content_ne_zero (h : Archive memory tar entries) {i : Nat} (hi : entries[i]? = some e) :
    tarPlace tar entries i + 512#64 ≠ 0#64 := by
  have hfits := h.fits
  have hlen := (List.getElem?_eq_some_iff.mp hi).1
  have hsum : ((entries.take i).map TarEntry.size).sum + 512 ≤ (entries.map TarEntry.size).sum := by
    have hsplit : (entries.map TarEntry.size).sum =
        ((entries.take i).map TarEntry.size).sum + ((entries.drop i).map TarEntry.size).sum := by
      rw [← List.sum_append, ← List.map_append, List.take_append_drop]
    rw [hsplit, List.drop_eq_getElem_cons hlen, List.map_cons, List.sum_cons, TarEntry.size]
    omega
  intro hzero
  have hnat := congrArg BitVec.toNat hzero
  simp only [tarPlace, BitVec.toNat_add, BitVec.toNat_ofNat] at hnat
  omega

end Archive

end

/-- In a well-formed archive the search returns the place of the content of the first entry
of the name, and `nullptr` if and only if there is none. -/
theorem find_tar_entry_spec (memory : Word → BitVec 8) {tar p : Word} {entries : List TarEntry}
    {name : List (BitVec 8)} (h : Archive memory tar entries)
    (hname : StringAt memory 0#8 p name) :
    ∃ r, (∀ fuel, 2 ^ 64 + entries.length < fuel → findTarEntry memory fuel tar p = some r) ∧
      (∀ i e, entries[i]? = some e → e.name = name →
        (∀ j e', j < i → entries[j]? = some e' → e'.name ≠ name) →
        r = tarPlace tar entries i + 512#64 ∧
          ∀ k c, e.content[k]? = some c → memory (r + BitVec.ofNat 64 k) = c) ∧
      (r = 0#64 ↔ ∀ e ∈ entries, e.name ≠ name) := by
  refine ⟨_, fun fuel hfuel => h.findTarEntry_eq hname hfuel, ?_⟩
  cases hfind : entries.findIdx? (fun e => e.name = name) with
  | none =>
    have hnone : ∀ e ∈ entries, e.name ≠ name := fun e he => by
      simpa using List.findIdx?_eq_none_iff.mp hfind e he
    refine ⟨fun i e hi heq => ?_, iff_of_true rfl hnone⟩
    exact absurd heq (hnone e (List.mem_of_getElem? hi))
  | some i =>
    obtain ⟨hi, hfound, hfirst⟩ := List.findIdx?_eq_some_iff_getElem.mp hfind
    have hentry := List.getElem?_eq_getElem hi
    refine ⟨fun j e hj heq hbefore => ?_, iff_of_false (h.content_ne_zero hentry) fun hall => ?_⟩
    · have hij : i = j := by
        refine Nat.le_antisymm (Nat.not_lt.mp fun hlt => ?_) (Nat.not_lt.mp fun hlt => ?_)
        · obtain ⟨hj, rfl⟩ := List.getElem?_eq_some_iff.mp hj
          simpa [heq] using hfirst j hlt
        · exact hbefore i _ hlt hentry (by simpa using hfound)
      subst hij
      exact ⟨rfl, (h.entry i e hj).content⟩
    · exact hall _ (List.getElem_mem hi) (by simpa using hfound)

/-- The files of `archiveMemory`. -/
def archiveEntries : List TarEntry :=
  [⟨[0x61#8], List.replicate 513 0x78#8, by decide, by decide, by decide,
      by rw [List.length_replicate]; decide⟩,
    ⟨[0x62#8], [0x79#8, 0x7A#8], by decide, by decide, by decide, by decide⟩]

theorem archiveEntries_archive : Archive archiveMemory 4096#64 archiveEntries := by
  refine ⟨by decide, by decide +kernel, fun i e hi => ?_, by decide +kernel⟩
  match i with
  | 0 =>
    cases hi
    refine ⟨by decide, ⟨[0x31#8, 0x30#8, 0x30#8, 0x31#8], by decide, ⟨by decide, by decide, ?_⟩,
      by decide⟩, fun k c hk => ?_⟩
    · rw [List.length_replicate]
      rfl
    · obtain ⟨hlt, rfl⟩ := List.getElem?_eq_some_iff.mp hk
      rw [List.length_replicate] at hlt
      have hall : ∀ k < 513, archiveMemory (tarPlace 4096#64 archiveEntries 0 + 512#64 +
          BitVec.ofNat 64 k) = 0x78#8 := by decide +kernel
      rw [hall k hlt, List.getElem_replicate]
  | 1 =>
    cases hi
    refine ⟨by decide +kernel, ⟨[0x32#8], by decide, ⟨by decide, by decide, rfl⟩, by decide +kernel⟩,
      fun k c hk => ?_⟩
    match k with
    | 0 =>
      cases hk
      decide +kernel
    | 1 =>
      cases hk
      decide +kernel

/-- The second file is found behind the first, which takes two blocks. -/
theorem find_tar_entry_spec_second :
    ∃ r, findTarEntry archiveMemory (2 ^ 64 + 3) 4096#64 5632#64 = some r ∧ r = 5632#64 + 512#64 ∧
      archiveMemory r = 0x79#8 ∧ archiveMemory (r + 1#64) = 0x7A#8 := by
  obtain ⟨r, hrun, hfirst, -⟩ := find_tar_entry_spec archiveMemory archiveEntries_archive
    (show StringAt archiveMemory 0#8 5632#64 [0x62#8] by decide)
  have hbefore : ∀ j e', j < 1 → archiveEntries[j]? = some e' → e'.name ≠ [0x62#8] := by
    intro j e' hj he'
    obtain rfl : j = 0 := by omega
    cases he'
    decide
  obtain ⟨hplace, hcontent⟩ := hfirst 1 _ rfl rfl hbefore
  have hr : tarPlace 4096#64 archiveEntries 1 = 5632#64 := by decide +kernel
  rw [hr] at hplace
  exact ⟨r, hrun _ (by decide), hplace, by simpa using hcontent 0 _ rfl, hcontent 1 _ rfl⟩

end Tern
