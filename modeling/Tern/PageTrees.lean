import Tern.Translations
import Tern.Pages
import Tern.Lib.Trees

/-! Page tables as a tree. No table is reached from the root by two paths, so a
table that is put under an absent entry shows up at the end of one path only, and
an entry of a page table translates one page only. Of the root the first `limit`
entries are looked at. -/

namespace Tern

open Lib Lib.Trees

/-- Entry `i` of `t` is looked at. -/
def HasEntry (root : Word) (limit : Nat) (t i : Word) : Prop :=
  i.toNat < 512 ∧ (t = root → i.toNat < limit)

instance (root : Word) (limit : Nat) (t i : Word) : Decidable (HasEntry root limit t i) :=
  inferInstanceAs (Decidable (_ ∧ _))

/-- The table that entry `i` of `t` leads to. -/
def tableAt (dm : DirectMap) (memory : Word → Word) (root : Word) (limit : Nat) (t i : Word) :
    Option Word :=
  if HasEntry root limit t i ∧ present memory (entryAt t i) = true then some (child dm memory t i)
  else none

/-- A tree of page tables without large-page entries; these would be in the second
and third level. -/
structure PageTree (dm : DirectMap) (memory : Word → Word) (root : Word) (limit : Nat) : Prop where
  frame : IsFrame dm root
  tree : Tree (tableAt dm memory root limit) root 3
  small : ∀ p t i, descend (tableAt dm memory root limit) root p = some t →
    p.length = 1 ∨ p.length = 2 → i.toNat < 512 → present memory (entryAt t i) = true →
    memory (entryAt t i) &&& ptePse = 0#64

/-- The translation by the page table at the end of the path. -/
def translation (dm : DirectMap) (memory : Word → Word) (root : Word) (limit : Nat) (virt : Word) :
    Option Word :=
  (descend (tableAt dm memory root limit) root (path virt)).bind fun pt =>
    pageLeaf memory (entryAt pt (index virt 12)) virt

/-- `memset` of a page. -/
def zeroPage (memory : Word → Word) (t : Word) : Word → Word := fun a =>
  if inMemory t pageSize a then 0#64 else memory a

section

variable {dm : DirectMap} {memory memory' : Word → Word} {root t t' u i j virt : Word} {limit n : Nat}
  {p : List Word}

/-! ## Entries -/

/-- The entries of a frame are in its memory, those of other frames are not. -/
theorem inMemory_entryAt (ht : t.toNat % 4096 = 0) (hu : u.toNat % 4096 = 0) (hj : j.toNat < 512) :
    inMemory u pageSize (entryAt t j) = decide (t = u) := by
  have hbound := t.isLt
  have hbound' := u.isLt
  rw [inMemory, decide_eq_decide, BitVec.lt_def, entryAt, BitVec.toNat_sub, BitVec.toNat_add,
    BitVec.toNat_mul]
  simp only [pageSize, BitVec.toNat_ofNat]
  constructor
  · intro h
    exact BitVec.eq_of_toNat_eq (by omega)
  · rintro rfl
    omega

/-! ## Lookups -/

theorem pageLeaf_congr {pte : Word} (h : memory' pte = memory pte) :
    pageLeaf memory' pte virt = pageLeaf memory pte virt := by
  rw [pageLeaf, pageLeaf, present, present, h]

variable (dm) in
theorem tableAt_eq_some (h : HasEntry root limit t i) (hpresent : present memory (entryAt t i) = true) :
    tableAt dm memory root limit t i = some (child dm memory t i) :=
  if_pos ⟨h, hpresent⟩

theorem tableAt_eq_none (habsent : present memory (entryAt t i) = false) :
    tableAt dm memory root limit t i = none := by
  rw [tableAt, habsent]
  exact if_neg fun h => Bool.false_ne_true h.2

/-- Entries that are not written lead where they led. -/
theorem tableAt_congr (h : HasEntry root limit t i → memory' (entryAt t i) = memory (entryAt t i)) :
    tableAt dm memory' root limit t i = tableAt dm memory root limit t i := by
  by_cases hentry : HasEntry root limit t i
  · rw [tableAt, tableAt, child, child, present, present, h hentry]
  · rw [tableAt, tableAt, if_neg fun hi => hentry hi.1, if_neg fun hi => hentry hi.1]

theorem hasEntry_of_ne (hne : t ≠ root) (hi : i.toNat < 512) : HasEntry root limit t i :=
  ⟨hi, fun he => absurd he hne⟩

namespace PageTree

/-- The tables of a tree are aligned. -/
theorem aligned (h : PageTree dm memory root limit)
    (hp : descend (tableAt dm memory root limit) root p = some t) : t.toNat % 4096 = 0 := by
  induction p using List.reverseRecOn generalizing t with
  | nil =>
    obtain rfl := Option.some.inj hp
    exact h.frame.toNat.1
  | append_singleton p i _ =>
    rw [descend_snoc] at hp
    obtain ⟨t₀, -, hnext⟩ := Option.bind_eq_some_iff.mp hp
    rw [tableAt] at hnext
    split_ifs at hnext
    obtain rfl := Option.some.inj hnext
    exact directMapOf_pteAddr_aligned h.frame.bits_le _

/-- No path leads back to the root. -/
theorem ne_root (h : PageTree dm memory root limit)
    (hp : descend (tableAt dm memory root limit) root p = some t) (hlen : p.length ≤ 3)
    (hne : p ≠ []) : t ≠ root := by
  rintro rfl
  exact hne (h.tree t p [] hlen (Nat.zero_le 3) hp rfl)

/-- A lookup from a table of the tree is a path on from it. -/
theorem lookup_eq (h : PageTree dm memory root limit) {is : List Word}
    (hp : descend (tableAt dm memory root limit) root p = some t) (hlen : p.length + is.length ≤ 3)
    (his : ∀ i ∈ is, i.toNat < 512) (hfirst : p = [] → ∀ i ∈ is.head?, i.toNat < limit) :
    lookup dm memory t is = descend (tableAt dm memory root limit) t is := by
  induction is generalizing t p with
  | nil => rfl
  | cons i is ih =>
    have hentry : HasEntry root limit t i := by
      by_cases hnil : p = []
      · subst hnil
        obtain rfl := Option.some.inj hp
        exact ⟨his i List.mem_cons_self, fun _ => hfirst rfl i rfl⟩
      · exact hasEntry_of_ne (h.ne_root hp (by omega) hnil) (his i List.mem_cons_self)
    rw [lookup, descend_cons]
    by_cases hpresent : present memory (entryAt t i) = true
    · have hnext := tableAt_eq_some dm hentry hpresent
      rw [if_pos hpresent, hnext, Option.bind_some]
      refine ih (p := p ++ [i]) ?_ ?_ (fun j hj => his j (List.mem_cons_of_mem i hj)) ?_
      · rw [descend_snoc_of hp, hnext]
      · simp only [List.length_append, List.length_cons, List.length_nil] at hlen ⊢
        omega
      · intro he
        simp at he
    · rw [if_neg hpresent, tableAt_eq_none (by simpa using hpresent)]
      rfl

theorem lookup_path (h : PageTree dm memory root limit) (hfirst : (index virt 39).toNat < limit) :
    lookup dm memory root (path virt) = descend (tableAt dm memory root limit) root (path virt) :=
  h.lookup_eq (p := []) rfl (by simp [path]) (by simp [path, index_lt]) fun _ => by
    simpa [path] using hfirst

/-- What `resolve_vm_mapping` computes. -/
theorem resolve_eq (h : PageTree dm memory root limit) (hfirst : (index virt 39).toNat < limit) :
    resolveVmMapping dm memory root virt = (translation dm memory root limit virt).getD 0#64 := by
  rw [resolveVmMapping_eq h.frame, h.lookup_path hfirst, translation]
  cases descend (tableAt dm memory root limit) root (path virt) with
  | none => rfl
  | some pt =>
    show leafOf memory (entryAt pt (index virt 12)) virt =
      (pageLeaf memory (entryAt pt (index virt 12)) virt).getD 0#64
    rw [pageLeaf, leafOf]
    cases present memory (entryAt pt (index virt 12)) <;> rfl

/-- What the processor finds. -/
theorem translate_eq (h : PageTree dm memory root limit) (hfirst : (index virt 39).toNat < limit) :
    translate dm memory root virt = translation dm memory root limit virt := by
  let pdpt := child dm memory root (index virt 39)
  let pd := child dm memory pdpt (index virt 30)
  have hlookup : lookup dm memory root (path virt) =
      if present memory (entryAt root (index virt 39)) then
        if present memory (entryAt pdpt (index virt 30)) then
          if present memory (entryAt pd (index virt 21)) then
            some (child dm memory pd (index virt 21)) else none
        else none
      else none := rfl
  rw [translation, ← h.lookup_path hfirst, hlookup, Tern.translate_eq h.frame ⟨rfl, rfl, rfl⟩]
  by_cases hpml4e : present memory (entryAt root (index virt 39)) = true
  · by_cases hpdpte : present memory (entryAt pdpt (index virt 30)) = true
    · by_cases hpde : present memory (entryAt pd (index virt 21)) = true
      · have hpd : descend (tableAt dm memory root limit) root [index virt 39, index virt 30] =
            some pd := by
          rw [← h.lookup_eq (p := []) rfl (by simp) (by simp [index_lt]) fun _ => by
            simpa using hfirst]
          show (if present memory (entryAt root (index virt 39)) then
            if present memory (entryAt pdpt (index virt 30)) then some pd else none else none) = some pd
          rw [if_pos hpml4e, if_pos hpdpte]
        have hsmall := h.small _ pd (index virt 21) hpd (.inr rfl) (index_lt _ _) hpde
        rw [if_pos ⟨hpml4e, hpdpte, hpde⟩, if_pos hpml4e, if_pos hpdpte, if_pos hpde,
          if_neg (not_not.mpr hsmall)]
        rfl
      · rw [if_neg fun hall => hpde hall.2.2, if_pos hpml4e, if_pos hpdpte, if_neg hpde]
        rfl
    · rw [if_neg fun hall => hpdpte hall.2.1, if_pos hpml4e, if_neg hpdpte]
      rfl
  · rw [if_neg fun hall => hpml4e hall.1, if_neg hpml4e]
    rfl

/-- The entries of the tree are all that matters. -/
theorem congr_descend (h : ∀ t i, Reaches (tableAt dm memory root limit) root 3 t →
      HasEntry root limit t i → memory' (entryAt t i) = memory (entryAt t i))
    {is : List Word} (hlen : is.length ≤ 3) :
    descend (tableAt dm memory' root limit) root is =
      descend (tableAt dm memory root limit) root is :=
  descend_congr (n := 2) (fun t i ht => tableAt_congr (h t i (ht.mono (by decide)))) hlen

theorem congr (htree : PageTree dm memory root limit)
    (h : ∀ t i, Reaches (tableAt dm memory root limit) root 3 t → HasEntry root limit t i →
      memory' (entryAt t i) = memory (entryAt t i)) : PageTree dm memory' root limit where
  frame := htree.frame
  tree t is js his hjs ht ht' := by
    rw [congr_descend h his] at ht
    rw [congr_descend h hjs] at ht'
    exact htree.tree t is js his hjs ht ht'
  small q t i hq hlen hi hpresent := by
    rw [congr_descend h (by omega)] at hq
    have hne : t ≠ root := htree.ne_root hq (by omega) fun hnil => by simp [hnil] at hlen
    have hsame := h t i ⟨q, by omega, hq⟩ (hasEntry_of_ne hne hi)
    rw [hsame]
    rw [present, hsame] at hpresent
    exact htree.small q t i hq hlen hi hpresent

theorem congr_translation (htree : PageTree dm memory root limit)
    (h : ∀ t i, Reaches (tableAt dm memory root limit) root 3 t → HasEntry root limit t i →
      memory' (entryAt t i) = memory (entryAt t i)) (virt : Word) :
    translation dm memory' root limit virt = translation dm memory root limit virt := by
  rw [translation, translation, congr_descend h (show (path virt).length ≤ 3 from le_rfl)]
  cases hpt : descend (tableAt dm memory root limit) root (path virt) with
  | none => rfl
  | some pt =>
    have hne : pt ≠ root := htree.ne_root hpt le_rfl (List.cons_ne_nil _ _)
    exact pageLeaf_congr (h pt _ ⟨_, le_rfl, hpt⟩ (hasEntry_of_ne hne (index_lt _ _)))

/-- A page that is not a table may be cleared. -/
theorem zeroPage_kept (htree : PageTree dm memory root limit) (hu : u.toNat % 4096 = 0)
    (hfresh : ¬ Reaches (tableAt dm memory root limit) root 3 u) {t i : Word}
    (ht : Reaches (tableAt dm memory root limit) root 3 t) (hi : i.toNat < 512) :
    zeroPage memory u (entryAt t i) = memory (entryAt t i) := by
  have hne : t ≠ u := by
    rintro rfl
    exact hfresh ht
  obtain ⟨q, -, hq⟩ := ht
  rw [zeroPage, inMemory_entryAt (htree.aligned hq) hu hi, decide_eq_false hne,
    if_neg Bool.false_ne_true]

end PageTree

theorem zeroPage_entryAt (memory : Word → Word) (hu : u.toNat % 4096 = 0) (hj : j.toNat < 512) :
    zeroPage memory u (entryAt u j) = 0#64 := by
  rw [zeroPage, inMemory_entryAt hu hu hj, decide_eq_true rfl, if_pos rfl]

/-! ## A table more -/

/-- The memory got a fresh table `u`, cleared, under entry `i` of `t`, which is at the
end of `p`. Other entries of the tree are as before. -/
structure Installs (dm : DirectMap) (memory memory' : Word → Word) (root : Word) (limit : Nat)
    (p : List Word) (t i u : Word) : Prop where
  path : descend (tableAt dm memory root limit) root p = some t
  short : p.length < 3
  hasEntry : HasEntry root limit t i
  absent : present memory (entryAt t i) = false
  fresh : ¬ Reaches (tableAt dm memory root limit) root 3 u
  entry : present memory' (entryAt t i) = true ∧ child dm memory' t i = u
  small : memory' (entryAt t i) &&& ptePse = 0#64
  zero : ∀ j : Word, j.toNat < 512 → memory' (entryAt u j) = 0#64
  kept : ∀ t' j, Reaches (tableAt dm memory root limit) root 3 t' → HasEntry root limit t' j →
    ¬ (t' = t ∧ j = i) → memory' (entryAt t' j) = memory (entryAt t' j)

namespace Installs

/-- An entry is written that leads to a fresh table. -/
theorem of_write {value : Word} (htree : PageTree dm memory root limit)
    (hpath : descend (tableAt dm memory root limit) root p = some t) (hlen : p.length < 3)
    (hentry : HasEntry root limit t i) (habsent : present memory (entryAt t i) = false)
    (hfresh : ¬ Reaches (tableAt dm memory root limit) root 3 u) (hu : u.toNat % 4096 = 0)
    (hzero : ∀ j : Word, j.toNat < 512 → memory (entryAt u j) = 0#64)
    (hpresent : value &&& ptePresent ≠ 0#64) (hvalue : tableOf dm value = u)
    (hsmall : value &&& ptePse = 0#64) :
    Installs dm memory (Function.update memory (entryAt t i) value) root limit p t i u := by
  have ht := htree.aligned hpath
  refine ⟨hpath, hlen, hentry, habsent, hfresh, ⟨?_, ?_⟩, ?_, fun j hj => ?_,
    fun t' j ht' hentry' hother => ?_⟩
  · rw [present, Function.update_self]
    exact bne_iff_ne.mpr hpresent
  · rw [child, Function.update_self]
    exact hvalue
  · rw [Function.update_self]
    exact hsmall
  · have hne : entryAt u j ≠ entryAt t i := by
      intro he
      obtain ⟨rfl, -⟩ := entryAt_inj_of_aligned hu ht hj hentry.1 he
      exact hfresh ⟨p, hlen.le, hpath⟩
    rw [Function.update_of_ne hne, hzero j hj]
  · obtain ⟨q, -, hq⟩ := ht'
    exact Function.update_of_ne
      (fun he => hother (entryAt_inj_of_aligned (htree.aligned hq) ht hentry'.1 hentry.1 he)) _ _

/-- A cleared table has no entries. -/
theorem not_present (h : Installs dm memory memory' root limit p t i u) (hj : j.toNat < 512) :
    present memory' (entryAt u j) = false := by
  rw [present, h.zero j hj]
  rfl

theorem inserts (h : Installs dm memory memory' root limit p t i u) :
    Inserts (tableAt dm memory root limit) (tableAt dm memory' root limit) root 3 p i u where
  short := h.short
  absent := by rw [h.path, Option.bind_some, tableAt_eq_none h.absent]
  fresh := h.fresh
  added := by
    rw [h.path, Option.bind_some, tableAt_eq_some dm h.hasEntry h.entry.1, h.entry.2]
  leaf j := by
    by_cases hj : j.toNat < 512
    · exact tableAt_eq_none (h.not_present hj)
    · exact if_neg fun hentry => hj hentry.1.1
  kept t' j ht' hne := by
    refine tableAt_congr fun hentry => h.kept t' j ht' hentry fun he => hne ⟨?_, he.2⟩
    rw [h.path, he.1]

theorem descend_eq (h : Installs dm memory memory' root limit p t i u)
    (htree : PageTree dm memory root limit) {is : List Word} (hlen : is.length ≤ 3) :
    descend (tableAt dm memory' root limit) root is =
      if is = p ++ [i] then some u else descend (tableAt dm memory root limit) root is :=
  h.inserts.descend_eq htree.tree hlen

theorem pageTree (h : Installs dm memory memory' root limit p t i u)
    (htree : PageTree dm memory root limit) : PageTree dm memory' root limit where
  frame := htree.frame
  tree := h.inserts.tree htree.tree
  small q t' j hq hlen hj hpresent := by
    rw [h.descend_eq htree (by omega)] at hq
    split_ifs at hq with he
    · obtain rfl := Option.some.inj hq
      rw [h.not_present hj] at hpresent
      cases hpresent
    · by_cases hentry : t' = t ∧ j = i
      · obtain ⟨rfl, rfl⟩ := hentry
        exact h.small
      · have hne : t' ≠ root := htree.ne_root hq (by omega) fun hnil => by simp [hnil] at hlen
        have hsame := h.kept t' j ⟨q, by omega, hq⟩ (hasEntry_of_ne hne hj) hentry
        rw [hsame]
        rw [present, hsame] at hpresent
        exact htree.small q t' j hq hlen hj hpresent

/-- No translation changes. -/
theorem translation_eq (h : Installs dm memory memory' root limit p t i u)
    (htree : PageTree dm memory root limit) (virt : Word) :
    translation dm memory' root limit virt = translation dm memory root limit virt := by
  have hlen : (Tern.path virt).length = 3 := rfl
  rw [translation, translation, h.descend_eq htree hlen.le]
  by_cases he : Tern.path virt = p ++ [i]
  · -- a page table was put there, all of whose entries are absent
    have habsent : descend (tableAt dm memory root limit) root (p ++ [i]) = none := by
      rw [descend_snoc_of h.path, tableAt_eq_none h.absent]
    rw [if_pos he, he, habsent, Option.bind_some, pageLeaf, h.not_present (index_lt _ _)]
    rfl
  · rw [if_neg he]
    cases hpt : descend (tableAt dm memory root limit) root (Tern.path virt) with
    | none => rfl
    | some pt =>
      refine pageLeaf_congr (h.kept pt _ ⟨_, hlen.le, hpt⟩ ?_ fun hentry => ?_)
      · exact hasEntry_of_ne (htree.ne_root hpt hlen.le (List.cons_ne_nil _ _)) (index_lt _ _)
      · have hpath := htree.tree pt _ p hlen.le h.short.le hpt (hentry.1 ▸ h.path)
        have hshort := h.short
        rw [← hpath, hlen] at hshort
        exact absurd hshort (lt_irrefl 3)

end Installs

/-- The tree with the table `u` in addition, under entry `i` of the table at the end
of `p`. -/
structure Grows (dm : DirectMap) (memory memory' : Word → Word) (root : Word) (limit : Nat)
    (p : List Word) (i u : Word) : Prop where
  tree : PageTree dm memory' root limit
  path : descend (tableAt dm memory' root limit) root (p ++ [i]) = some u
  leaf : ∀ j, tableAt dm memory' root limit u j = none
  reaches : ∀ t, Reaches (tableAt dm memory' root limit) root 3 t →
    t = u ∨ Reaches (tableAt dm memory root limit) root 3 t
  translation : ∀ virt,
    translation dm memory' root limit virt = translation dm memory root limit virt

section

variable {cleared : Word → Word} (htree : PageTree dm memory root limit)
  (hkept : ∀ t i, Reaches (tableAt dm memory root limit) root 3 t → HasEntry root limit t i →
    cleared (entryAt t i) = memory (entryAt t i))

include htree hkept

/-- A page that is no table yet was cleared, and then an entry was written that leads
to it. -/
theorem Installs.of_cleared {value : Word}
    (hpath : descend (tableAt dm memory root limit) root p = some t) (hlen : p.length < 3)
    (hentry : HasEntry root limit t i) (habsent : present memory (entryAt t i) = false)
    (hfresh : ¬ Reaches (tableAt dm memory root limit) root 3 u) (hu : u.toNat % 4096 = 0)
    (hzero : ∀ j : Word, j.toNat < 512 → cleared (entryAt u j) = 0#64)
    (hpresent : value &&& ptePresent ≠ 0#64) (hvalue : tableOf dm value = u)
    (hsmall : value &&& ptePse = 0#64) :
    Installs dm cleared (Function.update cleared (entryAt t i) value) root limit p t i u := by
  refine .of_write (htree.congr hkept) ?_ hlen hentry ?_ (fun h => hfresh ?_) hu hzero hpresent
    hvalue hsmall
  · rw [PageTree.congr_descend hkept hlen.le, hpath]
  · rw [present, hkept t i ⟨p, hlen.le, hpath⟩ hentry]
    exact habsent
  · obtain ⟨q, hq, hv⟩ := h
    exact ⟨q, hq, by rwa [PageTree.congr_descend hkept hq] at hv⟩

/-- One path leads to the table, and the others where they led. -/
theorem Installs.descend_cleared (hinst : Installs dm cleared memory' root limit p t i u)
    {is : List Word} (hlen : is.length ≤ 3) :
    descend (tableAt dm memory' root limit) root is =
      if is = p ++ [i] then some u else descend (tableAt dm memory root limit) root is := by
  rw [hinst.descend_eq (htree.congr hkept) hlen, PageTree.congr_descend hkept hlen]

theorem Grows.of_installs (hinst : Installs dm cleared memory' root limit p t i u) :
    Grows dm memory memory' root limit p i u where
  tree := hinst.pageTree (htree.congr hkept)
  path := by
    rw [hinst.descend_cleared htree hkept, if_pos rfl]
    rw [List.length_append]
    exact hinst.short
  leaf := hinst.inserts.leaf
  reaches v hv := by
    obtain ⟨q, hq, hv⟩ := hv
    rw [hinst.descend_cleared htree hkept hq] at hv
    split_ifs at hv
    · exact .inl (Option.some.inj hv).symm
    · exact .inr ⟨q, hq, hv⟩
  translation virt := by
    rw [hinst.translation_eq (htree.congr hkept), htree.congr_translation hkept]

end

theorem Grows.of_write {cleared : Word → Word} {value : Word} (htree : PageTree dm memory root limit)
    (hkept : ∀ t i, Reaches (tableAt dm memory root limit) root 3 t → HasEntry root limit t i →
      cleared (entryAt t i) = memory (entryAt t i))
    (hpath : descend (tableAt dm memory root limit) root p = some t) (hlen : p.length < 3)
    (hentry : HasEntry root limit t i) (habsent : present memory (entryAt t i) = false)
    (hfresh : ¬ Reaches (tableAt dm memory root limit) root 3 u) (hu : u.toNat % 4096 = 0)
    (hzero : ∀ j : Word, j.toNat < 512 → cleared (entryAt u j) = 0#64)
    (hpresent : value &&& ptePresent ≠ 0#64) (hvalue : tableOf dm value = u)
    (hsmall : value &&& ptePse = 0#64) :
    Grows dm memory (Function.update cleared (entryAt t i) value) root limit p i u :=
  .of_installs htree hkept
    (.of_cleared htree hkept hpath hlen hentry habsent hfresh hu hzero hpresent hvalue hsmall)

/-! ## An entry of a page table -/

namespace PageTree

variable {pt value : Word}

/-- The entry that translates an address. -/
theorem leaf_inj (h : PageTree dm memory root limit)
    (hpt : descend (tableAt dm memory root limit) root (path virt) = some pt)
    (hp : descend (tableAt dm memory root limit) root p = some t) (hlen : p.length ≤ 3)
    (hi : i.toNat < 512) (he : entryAt t i = entryAt pt (index virt 12)) :
    p = path virt ∧ i = index virt 12 := by
  obtain ⟨rfl, rfl⟩ := entryAt_inj_of_aligned (h.aligned hp) (h.aligned hpt) hi (index_lt _ _) he
  exact ⟨h.tree t p _ hlen le_rfl hp hpt, rfl⟩

/-- The upper levels do not depend on the page tables. -/
theorem write_kept (h : PageTree dm memory root limit)
    (hpt : descend (tableAt dm memory root limit) root (path virt) = some pt)
    (hp : descend (tableAt dm memory root limit) root p = some t) (hlen : p.length ≤ 2)
    (hi : i.toNat < 512) :
    Function.update memory (entryAt pt (index virt 12)) value (entryAt t i) =
      memory (entryAt t i) := by
  refine Function.update_of_ne (fun he => ?_) _ _
  obtain ⟨rfl, -⟩ := h.leaf_inj hpt hp (by omega) hi he
  exact absurd hlen (by simp [path])

theorem write_descend (h : PageTree dm memory root limit)
    (hpt : descend (tableAt dm memory root limit) root (path virt) = some pt) {is : List Word}
    (hlen : is.length ≤ 3) :
    descend (tableAt dm (Function.update memory (entryAt pt (index virt 12)) value) root limit)
        root is = descend (tableAt dm memory root limit) root is := by
  refine descend_congr (n := 2) (fun t i ht => ?_) hlen
  obtain ⟨q, hq, ht⟩ := ht
  exact tableAt_congr fun hentry => h.write_kept hpt ht hq hentry.1

theorem write (h : PageTree dm memory root limit)
    (hpt : descend (tableAt dm memory root limit) root (path virt) = some pt) (value : Word) :
    PageTree dm (Function.update memory (entryAt pt (index virt 12)) value) root limit where
  frame := h.frame
  tree t is js his hjs ht ht' := by
    rw [h.write_descend hpt his] at ht
    rw [h.write_descend hpt hjs] at ht'
    exact h.tree t is js his hjs ht ht'
  small q t i hq hlen hi hpresent := by
    rw [h.write_descend hpt (by omega)] at hq
    have hsame : Function.update memory (entryAt pt (index virt 12)) value (entryAt t i) =
      memory (entryAt t i) := h.write_kept hpt hq (by omega) hi
    rw [hsame]
    rw [present, hsame] at hpresent
    exact h.small q t i hq hlen hi hpresent

/-- The entry translates its page, and no other. -/
theorem write_translation (h : PageTree dm memory root limit)
    (hpt : descend (tableAt dm memory root limit) root (path virt) = some pt) (value a : Word) :
    translation dm (Function.update memory (entryAt pt (index virt 12)) value) root limit a =
      if pageNumber a = pageNumber virt then
        if value &&& ptePresent = 0#64 then none else some (pteAddr value ||| (a &&& 0xFFF#64))
      else translation dm memory root limit a := by
  rw [translation, translation, h.write_descend hpt (show (path a).length ≤ 3 from le_rfl)]
  by_cases hsame : pageNumber a = pageNumber virt
  · obtain ⟨hpath, hindex⟩ := samePage_iff.mpr hsame
    rw [if_pos hsame, hpath, hpt, hindex]
    simp [pageLeaf, present]
  · rw [if_neg hsame]
    cases hpt' : descend (tableAt dm memory root limit) root (path a) with
    | none => rfl
    | some pt' =>
      refine pageLeaf_congr (Function.update_of_ne (fun he => hsame ?_) _ _)
      exact samePage_iff.mp (h.leaf_inj hpt hpt' le_rfl (index_lt _ _) he)

end PageTree

/-! ## A root without entries -/

/-- Without entries there is the root alone. -/
theorem descend_of_empty (h : ∀ i, tableAt dm memory root limit root i = none) {is : List Word}
    (hdescend : descend (tableAt dm memory root limit) root is = some t) : is = [] ∧ t = root := by
  cases is with
  | nil => exact ⟨rfl, (Option.some.inj hdescend).symm⟩
  | cons i is =>
    rw [descend_cons, h] at hdescend
    cases hdescend

theorem PageTree.of_empty (h : ∀ i, tableAt dm memory root limit root i = none)
    (hframe : IsFrame dm root) : PageTree dm memory root limit where
  frame := hframe
  tree t is js _ _ his hjs := by rw [(descend_of_empty h his).1, (descend_of_empty h hjs).1]
  small p t i hp hlen _ _ := by
    rw [(descend_of_empty h hp).1] at hlen
    simp at hlen

theorem reaches_of_empty (h : ∀ i, tableAt dm memory root limit root i = none)
    (hreaches : Reaches (tableAt dm memory root limit) root n t) : t = root := by
  obtain ⟨is, -, his⟩ := hreaches
  exact (descend_of_empty h his).2

theorem PageTree.of_absent (h : ∀ entry, present memory entry = false) (hframe : IsFrame dm root) :
    PageTree dm memory root limit :=
  .of_empty (fun _ => tableAt_eq_none (h _)) hframe

theorem reaches_of_absent (h : ∀ entry, present memory entry = false)
    (hreaches : Reaches (tableAt dm memory root limit) root n t) : t = root :=
  reaches_of_empty (fun _ => tableAt_eq_none (h _)) hreaches

end

end Tern
