import Tern.Regions
import Tern.Strtol

/-! The search for a file in an archive. In a well-formed archive it finds the first
entry of the name; the sizes of other archives are read as signed numbers, and a negative
one keeps the search where it is or takes it back. -/

namespace Tern

open Lib

/-! ## The code -/

section

variable (memory : Word → BitVec 8)

def strcmp (fuel : Nat) (s1 s2 : Word) : Option Int := do
  let (s1, s2) ← whileLoop (fun a => (memory a.1 != 0#8 && memory a.1 == memory a.2, a))
    (fun a => some (a.1 + 1#64, a.2 + 1#64)) fuel (s1, s2)
  some ((memory s1).toNat - (memory s2).toNat)

/-- `tar_number (p)`, without its message. -/
def tarNumber (fuel : Nat) (p : Word) : Option Word := do
  let (result, last) ← strtol memory fuel p 8
  some (if last == p then 0#64 else result)

/-- Where `size` is in a `struct tar_header`; `name` is its first field. -/
def tarSizeOffset : Word := 124#64

def nextTar (tar len : Word) : Word := (tar + (len + 0x200#64) + 0x1FF#64) &&& ~~~0x1FF#64

/-- One round of the loop: the result, or the next header. -/
def tarRound (fuel : Nat) (name tar : Word) : Option (Word ⊕ Word) :=
  if memory tar == 0#8 then some (.inl 0#64)
  else do
    if (← strcmp memory fuel tar name) = 0 then some (.inl (tar + 512#64))
    else
      let len ← tarNumber memory fuel (tar + tarSizeOffset)
      some (.inr (nextTar tar len))

/-- The address of the content of the entry, or `nullptr`. -/
def findTarEntry : Nat → Word → Word → Option Word
  | 0, _, _ => none
  | fuel + 1, tar, name =>
    match tarRound memory fuel name tar with
    | none => none
    | some (.inl result) => some result
    | some (.inr tar) => findTarEntry fuel tar name

end

/-! ## Rounds -/

section

variable {memory : Word → BitVec 8} {fuel fuel' : Nat} {p q name tar next : Word}
  {s t : List (BitVec 8)}

theorem strcmp_of_stop (hstop : (memory p != 0#8 && memory p == memory q) = false)
    (hfuel : 0 < fuel) :
    strcmp memory fuel p q = some ((memory p).toNat - (memory q).toNat : Int) := by
  obtain ⟨fuel, rfl⟩ := Nat.exists_eq_add_of_le' hfuel
  rw [strcmp, whileLoop_of_false (by rw [hstop])]
  rfl

theorem strcmp_of_go (hgo : (memory p != 0#8 && memory p == memory q) = true) :
    strcmp memory (fuel + 1) p q = strcmp memory fuel (p + 1#64) (q + 1#64) := by
  rw [strcmp, whileLoop_of_true (by rw [hgo])]
  rfl

theorem toNat_sub_eq_zero_iff (c d : BitVec 8) : (c.toNat - d.toNat : Int) = 0 ↔ c = d := by
  rw [Int.sub_eq_zero, Int.natCast_inj, BitVec.toNat_inj]

theorem strcmp_eq_zero_iff (hs : StringAt memory 0#8 p s) (ht : StringAt memory 0#8 q t)
    (hfuel : s.length < fuel) :
    ∃ x, strcmp memory fuel p q = some x ∧ (x = 0 ↔ s = t) := by
  induction s generalizing p q t fuel with
  | nil =>
    have hp : memory p = 0#8 := hs
    refine ⟨_, strcmp_of_stop (by rw [hp]; rfl) hfuel, ?_⟩
    rw [toNat_sub_eq_zero_iff, hp, ht.head]
    cases t with
    | nil => simp
    | cons d t => simpa using ht.2.1.symm
  | cons c s ih =>
    obtain ⟨hc, hne, hs⟩ := hs
    cases t with
    | nil =>
      have hq : memory q = 0#8 := ht
      refine ⟨_, strcmp_of_stop ?_ (Nat.zero_lt_of_lt hfuel), ?_⟩
      · simp [hc, hq, hne]
      · rw [toNat_sub_eq_zero_iff, hc, hq]
        simp [hne]
    | cons d t =>
      obtain ⟨hd, -, ht⟩ := ht
      by_cases hcd : c = d
      · obtain ⟨fuel, rfl⟩ := Nat.exists_eq_add_of_le' (Nat.zero_lt_of_lt hfuel)
        rw [strcmp_of_go (by simp [hc, hd, hcd, hcd ▸ hne])]
        simpa [hcd] using ih hs ht (Nat.lt_of_succ_lt_succ hfuel)
      · refine ⟨_, strcmp_of_stop ?_ (Nat.zero_lt_of_lt hfuel), ?_⟩
        · simp [hc, hd, hcd]
        · simp [toNat_sub_eq_zero_iff, hc, hd, hcd]

theorem strcmp_mono {x : Int} (h : strcmp memory fuel p q = some x) (hle : fuel ≤ fuel') :
    strcmp memory fuel' p q = some x := by
  obtain ⟨a, ha, h⟩ := Option.bind_eq_some_iff.mp h
  exact Option.bind_eq_some_iff.mpr ⟨a, whileLoop_mono ha hle, h⟩

/-- What `tar_number` reads: the signed octal number of the text, as a `long`. -/
theorem tarNumber_eq (hs : StringAt memory 0#8 p s) (hfuel : s.length < fuel) :
    tarNumber memory fuel p = some (BitVec.ofInt 64 (Numeral.value 8 s)) := by
  rw [tarNumber, strtol_of_not_dangling hs hfuel rfl]
  simp only [bind, Option.bind_some, Option.some.injEq, beq_iff_eq, ite_eq_right_iff]
  intro hplace
  have hlength : Numeral.length 8 s = 0 := by
    have hzero := congrArg BitVec.toNat (BitVec.add_right_eq_self.mp hplace)
    rwa [BitVec.toNat_ofNat,
      Nat.mod_eq_of_lt ((Numeral.length_le 8 s).trans_lt hs.length_lt)] at hzero
  have hnone : Numeral.digits 8 (Numeral.body s) = [] := by
    rw [← List.length_eq_zero_iff]
    rw [Numeral.length] at hlength
    omega
  simp [Numeral.value, hnone]

theorem tarNumber_mono {len : Word} (h : tarNumber memory fuel p = some len)
    (hle : fuel ≤ fuel') : tarNumber memory fuel' p = some len := by
  obtain ⟨a, ha, h⟩ := Option.bind_eq_some_iff.mp h
  exact Option.bind_eq_some_iff.mpr ⟨a, strtol_mono ha hle, h⟩

theorem tarRound_mono {r : Word ⊕ Word} (h : tarRound memory fuel name tar = some r)
    (hle : fuel ≤ fuel') : tarRound memory fuel' name tar = some r := by
  rw [tarRound] at h ⊢
  split at h
  · rename_i hend
    rw [if_pos hend]
    exact h
  · rename_i hend
    rw [if_neg hend]
    obtain ⟨x, hx, h⟩ := Option.bind_eq_some_iff.mp h
    refine Option.bind_eq_some_iff.mpr ⟨x, strcmp_mono hx hle, ?_⟩
    split at h
    · rename_i hzero
      rw [if_pos hzero]
      exact h
    · rename_i hzero
      rw [if_neg hzero]
      obtain ⟨len, hlen, h⟩ := Option.bind_eq_some_iff.mp h
      exact Option.bind_eq_some_iff.mpr ⟨len, tarNumber_mono hlen hle, h⟩

theorem tarRound_end (h : memory tar = 0#8) : tarRound memory fuel name tar = some (.inl 0#64) := by
  rw [tarRound, if_pos (beq_iff_eq.mpr h)]

/-- A header that is not the last one: found, or on to the next. -/
theorem tarRound_eq {field wanted : List (BitVec 8)} (h : memory tar ≠ 0#8)
    (hfield : StringAt memory 0#8 tar field) (hwanted : StringAt memory 0#8 name wanted)
    (hsize : StringAt memory 0#8 (tar + tarSizeOffset) s) (hfuel : 2 ^ 64 ≤ fuel) :
    tarRound memory fuel name tar = some (if field = wanted then .inl (tar + 512#64)
      else .inr (nextTar tar (BitVec.ofInt 64 (Numeral.value 8 s)))) := by
  obtain ⟨x, hx, hzero⟩ := strcmp_eq_zero_iff hfield hwanted (hfield.length_lt.trans_le hfuel)
  have hlen := tarNumber_eq hsize (hsize.length_lt.trans_le hfuel)
  rw [tarRound, if_neg (by simpa using h), hx, Option.bind_eq_bind, Option.bind_some]
  by_cases heq : field = wanted
  · rw [if_pos (hzero.mpr heq), if_pos heq]
  · rw [if_neg (fun h => heq (hzero.mp h)), if_neg heq, hlen]
    rfl

/-! ## Where the next header is -/

theorem nextTar_toNat (tar len : Word) :
    (nextTar tar len).toNat = (tar.toNat + len.toNat + 1023) % 2 ^ 64 / 512 * 512 := by
  have hsum : (tar + (len + 0x200#64) + 0x1FF#64).toNat = (tar.toNat + len.toNat + 1023) % 2 ^ 64 := by
    simp only [BitVec.toNat_add, BitVec.toNat_ofNat]
    omega
  rw [nextTar, ← hsum]
  exact mask_toNat (a := 512#64) (k := 9) rfl

/-- A header of this address and size is followed by one behind it. -/
def HeaderAdvances (tar : Word) (len : Int) : Prop :=
  (-(511 + tar.toNat % 512 : Nat) ≤ len ∧ tar.toNat + len + 1023 < 2 ^ 64) ∨
    tar.toNat + len + 1023 < 0

theorem lt_nextTar_iff (tar len : Word) :
    tar.toNat < (nextTar tar len).toNat ↔ HeaderAdvances tar len.toInt := by
  have htar := tar.isLt
  have hlen := len.isLt
  rw [nextTar_toNat, HeaderAdvances, BitVec.toInt_eq_toNat_cond]
  split <;> omega

theorem nextTar_aligned (tar len : Word) : (nextTar tar len).toNat % 512 = 0 := by
  rw [nextTar_toNat]
  exact Nat.mul_mod_left _ _

/-! ## Runs of the search -/

/-- The search goes on from `tar` to `next`. -/
def GoesTo (memory : Word → BitVec 8) (name tar next : Word) : Prop :=
  ∃ fuel, tarRound memory fuel name tar = some (.inr next)

/-- The text of the size field, up to its terminator, takes the search forward. -/
def SizeAdvances (memory : Word → BitVec 8) (tar : Word) : Prop :=
  ∃ s, StringAt memory 0#8 (tar + tarSizeOffset) s ∧
    HeaderAdvances tar (BitVec.ofInt 64 (Numeral.value 8 s)).toInt

theorem goesTo_iff {field wanted : List (BitVec 8)} (hfield : StringAt memory 0#8 tar field)
    (hwanted : StringAt memory 0#8 name wanted)
    (hsize : StringAt memory 0#8 (tar + tarSizeOffset) s) :
    GoesTo memory name tar next ↔ memory tar ≠ 0#8 ∧ field ≠ wanted ∧
      next = nextTar tar (BitVec.ofInt 64 (Numeral.value 8 s)) := by
  constructor
  · rintro ⟨fuel, hround⟩
    have hround := tarRound_mono hround (Nat.le_add_right fuel (2 ^ 64))
    by_cases hmem : memory tar = 0#8
    · rw [tarRound_end hmem] at hround
      cases hround
    · rw [tarRound_eq hmem hfield hwanted hsize (Nat.le_add_left _ _)] at hround
      by_cases heq : field = wanted
      · rw [if_pos heq] at hround
        cases hround
      · rw [if_neg heq] at hround
        exact ⟨hmem, heq, (Sum.inr.inj (Option.some.inj hround)).symm⟩
  · rintro ⟨hmem, heq, rfl⟩
    exact ⟨2 ^ 64, by rw [tarRound_eq hmem hfield hwanted hsize le_rfl, if_neg heq]⟩

/-- The next header is behind this one if and only if the size field takes the search
forward; it is aligned in any case. -/
theorem GoesTo.lt_iff (hend : memory q = 0#8) (h : GoesTo memory name tar next) :
    next.toNat % 512 = 0 ∧ (tar.toNat < next.toNat ↔ SizeAdvances memory tar) := by
  obtain ⟨field, hfield⟩ := StringAt.exists_string hend tar
  obtain ⟨wanted, hwanted⟩ := StringAt.exists_string hend name
  obtain ⟨s, hsize⟩ := StringAt.exists_string hend (tar + tarSizeOffset)
  obtain ⟨-, -, rfl⟩ := (goesTo_iff hfield hwanted hsize).mp h
  refine ⟨nextTar_aligned _ _, ?_⟩
  rw [lt_nextTar_iff]
  refine ⟨fun h => ⟨s, hsize, h⟩, ?_⟩
  rintro ⟨s', hsize', h⟩
  rwa [hsize.unique hsize']

theorem tarRound_returns (hend : memory q = 0#8) (name tar : Word) :
    ∃ r, ∀ fuel, 2 ^ 64 ≤ fuel → tarRound memory fuel name tar = some r := by
  obtain ⟨field, hfield⟩ := StringAt.exists_string hend tar
  obtain ⟨wanted, hwanted⟩ := StringAt.exists_string hend name
  obtain ⟨s, hsize⟩ := StringAt.exists_string hend (tar + tarSizeOffset)
  by_cases hmem : memory tar = 0#8
  · exact ⟨_, fun _ _ => tarRound_end hmem⟩
  · exact ⟨_, fun _ hfuel => tarRound_eq hmem hfield hwanted hsize hfuel⟩

theorem findTarEntry_succ_of_next (h : tarRound memory fuel name tar = some (.inr next)) :
    findTarEntry memory (fuel + 1) tar name = findTarEntry memory fuel next name := by
  rw [findTarEntry, h]

theorem findTarEntry_succ_of_result {result : Word}
    (h : tarRound memory fuel name tar = some (.inl result)) :
    findTarEntry memory (fuel + 1) tar name = some result := by
  rw [findTarEntry, h]

/-- A search that only goes up ends: the headers left are above this one. -/
theorem findTarEntry_returns (hend : memory q = 0#8)
    (hup : ∀ t t', Relation.ReflTransGen (GoesTo memory name) tar t → GoesTo memory name t t' →
      t.toNat < t'.toNat) {rounds : Nat} (hrounds : 2 ^ 64 - tar.toNat ≤ rounds) :
    ∃ r, ∀ fuel, 2 ^ 64 + rounds ≤ fuel → findTarEntry memory fuel tar name = some r := by
  induction rounds generalizing tar with
  | zero =>
    have htar := tar.isLt
    omega
  | succ rounds ih =>
    obtain ⟨r, hround⟩ := tarRound_returns hend name tar
    cases r with
    | inl result =>
      refine ⟨result, fun fuel hfuel => ?_⟩
      obtain ⟨fuel, rfl⟩ := Nat.exists_eq_add_of_le' (show 1 ≤ fuel by omega)
      exact findTarEntry_succ_of_result (hround fuel (by omega))
    | inr next =>
      have hgoes : GoesTo memory name tar next := ⟨2 ^ 64, hround _ le_rfl⟩
      have hlt := hup tar next .refl hgoes
      obtain ⟨r, hr⟩ := ih (fun t t' ht => hup t t' (.head hgoes ht)) (by omega)
      refine ⟨r, fun fuel hfuel => ?_⟩
      obtain ⟨fuel, rfl⟩ := Nat.exists_eq_add_of_le' (show 1 ≤ fuel by omega)
      rw [findTarEntry_succ_of_next (hround fuel (by omega))]
      exact hr fuel (by omega)

/-- A search that comes back to a header never ends. -/
theorem findTarEntry_stuck (h : GoesTo memory name tar tar) (fuel : Nat) :
    findTarEntry memory fuel tar name = none := by
  obtain ⟨enough, hround⟩ := h
  induction fuel with
  | zero => rfl
  | succ fuel ih =>
    cases hr : tarRound memory fuel name tar with
    | none => rw [findTarEntry, hr]
    | some r =>
      have hsame := (tarRound_mono hr (Nat.le_add_right fuel enough)).symm.trans
        (tarRound_mono hround (Nat.le_add_left enough fuel))
      rw [findTarEntry_succ_of_next (hr.trans hsame), ih]

end

/-- Every round goes to a higher aligned header, and so the search ends, if and only if the
size field of each header that the search leaves takes it forward. -/
theorem find_tar_entry_ascends_iff (memory : Word → BitVec 8) (name tar : Word) {last : Word}
    (hend : memory last = 0#8) :
    ((∀ t t', Relation.ReflTransGen (GoesTo memory name) tar t → GoesTo memory name t t' →
        t.toNat < t'.toNat ∧ t'.toNat % 512 = 0) ∧
      ∃ r, ∀ fuel, 2 ^ 65 ≤ fuel → findTarEntry memory fuel tar name = some r) ↔
    ∀ t t', Relation.ReflTransGen (GoesTo memory name) tar t → GoesTo memory name t t' →
      SizeAdvances memory t := by
  constructor
  · rintro ⟨hup, -⟩ t t' ht hgoes
    exact (hgoes.lt_iff hend).2.mp (hup t t' ht hgoes).1
  · intro hsizes
    have hup : ∀ t t', Relation.ReflTransGen (GoesTo memory name) tar t → GoesTo memory name t t' →
        t.toNat < t'.toNat := fun t t' ht hgoes =>
      (hgoes.lt_iff hend).2.mpr (hsizes t t' ht hgoes)
    refine ⟨fun t t' ht hgoes => ⟨hup t t' ht hgoes, (hgoes.lt_iff hend).1⟩, ?_⟩
    obtain ⟨r, hr⟩ := findTarEntry_returns hend hup (Nat.sub_le _ _)
    exact ⟨r, fun fuel hfuel => hr fuel (by omega)⟩

/-- A header at address 4096 with its content, and terminators elsewhere. -/
def headerMemory (name size content : List (BitVec 8)) (p : Word) : BitVec 8 :=
  let i := (p - 4096#64).toNat
  if i < 100 then name[i]?.getD 0#8
  else if i < 124 then 0#8
  else if i < 136 then size[i - 124]?.getD 0#8
  else if i < 512 then 0#8
  else content[i - 512]?.getD 0#8

/-- An archive of two files, `a` with 1001 (octal) bytes and `b` with two, and
elsewhere the name `c`. -/
def archiveMemory (p : Word) : BitVec 8 :=
  if 4608#64 ≤ p ∧ p < 5121#64 then 0x78#8
  else ([(4096#64, 0x61#8), (4220#64, 0x31#8), (4221#64, 0x30#8), (4222#64, 0x30#8),
    (4223#64, 0x31#8), (5632#64, 0x62#8), (5756#64, 0x32#8), (6144#64, 0x79#8), (6145#64, 0x7A#8),
    (8192#64, 0x63#8)].lookup p).getD 0#8

/-- A search for `c` goes from `a` to `b` and from there to the zero header. -/
theorem archive_goesTo : (∀ t, GoesTo archiveMemory 8192#64 4096#64 t ↔ t = 5632#64) ∧
    (∀ t, GoesTo archiveMemory 8192#64 5632#64 t ↔ t = 6656#64) ∧
    ∀ t, ¬ GoesTo archiveMemory 8192#64 6656#64 t := by
  have hname : StringAt archiveMemory 0#8 8192#64 [0x63#8] := by decide
  refine ⟨fun t => ?_, fun t => ?_, fun t => ?_⟩
  · have hfield : StringAt archiveMemory 0#8 4096#64 [0x61#8] := by decide
    have hsize : StringAt archiveMemory 0#8 (4096#64 + tarSizeOffset)
        [0x31#8, 0x30#8, 0x30#8, 0x31#8] := by decide
    rw [goesTo_iff hfield hname hsize]
    exact ⟨fun h => h.2.2, fun h => ⟨by decide, by decide, h⟩⟩
  · have hfield : StringAt archiveMemory 0#8 5632#64 [0x62#8] := by decide
    have hsize : StringAt archiveMemory 0#8 (5632#64 + tarSizeOffset) [0x32#8] := by decide
    rw [goesTo_iff hfield hname hsize]
    exact ⟨fun h => h.2.2, fun h => ⟨by decide, by decide, h⟩⟩
  · rintro ⟨fuel, hround⟩
    rw [tarRound_end (by decide)] at hround
    cases hround

theorem find_tar_entry_ascends_iff_two :
    (GoesTo archiveMemory 8192#64 4096#64 5632#64 ∧ GoesTo archiveMemory 8192#64 5632#64 6656#64) ∧
    (∀ t t', Relation.ReflTransGen (GoesTo archiveMemory 8192#64) 4096#64 t →
      GoesTo archiveMemory 8192#64 t t' → t.toNat < t'.toNat ∧ t'.toNat % 512 = 0) ∧
    ∃ r, ∀ fuel, 2 ^ 65 ≤ fuel → findTarEntry archiveMemory fuel 4096#64 8192#64 = some r := by
  obtain ⟨hfirst, hsecond, hlast⟩ := archive_goesTo
  have hend : archiveMemory 0#64 = 0#8 := by decide
  refine ⟨⟨(hfirst _).mpr rfl, (hsecond _).mpr rfl⟩,
    (find_tar_entry_ascends_iff archiveMemory 8192#64 4096#64 hend).mpr fun t t' ht hgoes => ?_⟩
  have hat : t = 4096#64 ∨ t = 5632#64 := by
    rcases ht.cases_head with rfl | ⟨t₁, h₁, ht⟩
    · exact .inl rfl
    · obtain rfl := (hfirst t₁).mp h₁
      rcases ht.cases_head with rfl | ⟨t₂, h₂, ht⟩
      · exact .inr rfl
      · obtain rfl := (hsecond t₂).mp h₂
        rcases ht.cases_head with rfl | ⟨t₃, h₃, -⟩
        · exact absurd hgoes (hlast t')
        · exact absurd h₃ (hlast t₃)
  rcases hat with rfl | rfl
  · exact ⟨[0x31#8, 0x30#8, 0x30#8, 0x31#8], by decide, by unfold HeaderAdvances; decide⟩
  · exact ⟨[0x32#8], by decide, by unfold HeaderAdvances; decide⟩

/-- The size `-1000`, octal for -512, leads back to its own header. -/
theorem find_tar_entry_negative_size :
    ∃ (memory : Word → BitVec 8) (name tar last : Word), memory last = 0#8 ∧
      tar.toNat % 512 = 0 ∧ GoesTo memory name tar tar ∧
      ∀ fuel, findTarEntry memory fuel tar name = none := by
  let memory := headerMemory [0x61#8] [0x2D#8, 0x31#8, 0x30#8, 0x30#8, 0x30#8] []
  have hfield : StringAt memory 0#8 4096#64 [0x61#8] := by decide
  have hname : StringAt memory 0#8 0#64 [] := by decide
  have hsize : StringAt memory 0#8 (4096#64 + tarSizeOffset)
      [0x2D#8, 0x31#8, 0x30#8, 0x30#8, 0x30#8] := by decide
  have hgoes : GoesTo memory 0#64 4096#64 4096#64 :=
    (goesTo_iff hfield hname hsize).mpr ⟨by decide, by decide, by decide⟩
  exact ⟨memory, 0#64, 4096#64, 0#64, by decide, by decide, hgoes, findTarEntry_stuck hgoes⟩

end Tern
