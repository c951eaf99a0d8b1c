import Tern.Lib.Links
import Mathlib.Data.List.Basic

/-! Circular doubly linked lists with a head node, any number of them in one
link structure. `Ring h l` says that going around from the head `h` one meets
exactly `l`; `Rings H Q` says that the heads `H` hold the lists `Q`, that no node
is in two places, and that the nodes of no list are idle: null, or linked to
themselves. Splicing a node in behind a head and splicing a node out keep
`Rings`, and change the lists as one expects. `Detached a` says of one node that
no other leads to it, whatever the rest of the structure looks like; splicing
other nodes keeps it. -/

namespace Tern.Lib

namespace Links

variable {α : Type*} (L : Links α)

/-- `b` follows `a`, seen from both. -/
def Joined (a b : α) : Prop := L.next a = some b ∧ L.prev b = some a

/-- From `a` along the nodes `l` to `b`. -/
def Path (a : α) : List α → α → Prop
  | [], b => L.Joined a b
  | x :: l, b => L.Joined a x ∧ Path x l b

/-- The circular list of the head `h` holds `l`. -/
def Ring (h : α) (l : List α) : Prop := L.Path h l h

/-- A node of no list: both links null, or both to the node itself. -/
def Idle (a : α) : Prop :=
  (L.next a = none ∧ L.prev a = none) ∨ (L.next a = some a ∧ L.prev a = some a)

variable {L} {L' : Links α} {a b h : α} {l m : List α}

theorem headD_mem : l.headD a ∈ a :: l := by
  cases l <;> simp

theorem getLastD_mem : l.getLastD a ∈ a :: l := by
  rw [List.getLastD_eq_getLast?]
  cases hl : l.getLast? with
  | none => simp
  | some x => simp [List.mem_of_getLast? hl]

theorem Path.congr (hn : ∀ x ∈ a :: l, L'.next x = L.next x)
    (hp : ∀ x ∈ l ++ [b], L'.prev x = L.prev x) (h : L.Path a l b) : L'.Path a l b := by
  induction l generalizing a with
  | nil => exact ⟨(hn a (by simp)).trans h.1, (hp b (by simp)).trans h.2⟩
  | cons x l ih =>
    obtain ⟨hx, h⟩ := h
    refine ⟨⟨(hn a (by simp)).trans hx.1, (hp x (by simp)).trans hx.2⟩, ih ?_ ?_ h⟩
    · exact fun y hy => hn y (List.mem_cons_of_mem _ hy)
    · exact fun y hy => hp y (by simp at hy ⊢; tauto)

theorem path_append {x : α} :
    L.Path a (l ++ x :: m) b ↔ L.Path a l x ∧ L.Path x m b := by
  induction l generalizing a with
  | nil => exact Iff.rfl
  | cons y l ih =>
    simp only [List.cons_append, Path, ih]
    tauto

/-- The first node of a path. -/
theorem Path.next_eq (h : L.Path a l b) : L.next a = some (l.headD b) := by
  cases l with
  | nil => exact h.1
  | cons x l => exact h.1.1

/-- The last node of a path. -/
theorem Path.prev_eq (h : L.Path a l b) : L.prev b = some (l.getLastD a) := by
  induction l generalizing a with
  | nil => exact h.2
  | cons x l ih =>
    rw [ih h.2]
    cases l <;> rfl

/-- The links determine what lies between two nodes. -/
theorem Path.unique (h : L.Path a l b) (h' : L.Path a m b) (hl : b ∉ l) (hm : b ∉ m) : l = m := by
  induction l generalizing a m with
  | nil =>
    cases m with
    | nil => rfl
    | cons y m =>
      cases h.1.symm.trans h'.1.1
      exact absurd List.mem_cons_self hm
  | cons x l ih =>
    cases m with
    | nil =>
      cases h.1.1.symm.trans h'.1
      exact absurd List.mem_cons_self hl
    | cons y m =>
      cases h.1.1.symm.trans h'.1.1
      rw [List.mem_cons, not_or] at hl hm
      rw [ih h.2 h'.2 hl.2 hm.2]

/-- Along a path every node agrees with the next one, and with the one before. -/
theorem Path.joined_next (h : L.Path a l b) {x : α} (hx : x ∈ a :: l) : ∃ y, L.Joined x y := by
  induction l generalizing a with
  | nil =>
    cases List.mem_singleton.mp hx
    exact ⟨b, h⟩
  | cons y l ih =>
    rcases List.mem_cons.mp hx with rfl | hx
    · exact ⟨y, h.1⟩
    · exact ih h.2 hx

theorem Path.joined_prev (h : L.Path a l b) {x : α} (hx : x ∈ l ++ [b]) : ∃ y, L.Joined y x := by
  induction l generalizing a with
  | nil =>
    cases List.mem_singleton.mp hx
    exact ⟨a, h⟩
  | cons y l ih =>
    rcases List.mem_cons.mp hx with rfl | hx
    · exact ⟨a, h.1⟩
    · exact ih h.2 hx

theorem Ring.next_self_iff (hr : L.Ring h l) (hh : h ∉ l) : L.next h = some h ↔ l = [] := by
  rw [hr.next_eq]
  cases l with
  | nil => simp
  | cons x l =>
    have hx : x ≠ h := fun e => hh (by simp [e])
    simp [hx]

/-- Following `next` from the head never leaves the ring. -/
theorem Ring.mem_of_reach (hr : L.Ring h l) {c : α} (hc : Relation.TransGen L.Step h c) :
    c ∈ h :: l := by
  have hclosed : ∀ x ∈ h :: l, ∀ y, L.Step x y → y ∈ h :: l := by
    intro x hx y hy
    have hnext : ∃ m, L.next x = some (m.headD h) ∧ m ⊆ l := by
      rcases List.mem_cons.mp hx with rfl | hx
      · exact ⟨l, hr.next_eq, fun _ hz => hz⟩
      · obtain ⟨p, q, rfl⟩ := List.append_of_mem hx
        exact ⟨q, (path_append.mp hr).2.next_eq, fun z hz => by simp [hz]⟩
    obtain ⟨m, hm, hsub⟩ := hnext
    cases hm.symm.trans hy
    exact List.cons_subset_cons h hsub headD_mem
  induction hc with
  | single hs => exact hclosed h (by simp) _ hs
  | tail _ hs ih => exact hclosed _ ih _ hs

theorem Path.reach (hp : L.Path a l b) {c : α} (hc : c ∈ l) : Relation.TransGen L.Step a c := by
  induction l generalizing a with
  | nil => cases hc
  | cons x l ih =>
    rcases List.mem_cons.mp hc with rfl | hc
    · exact .single hp.1.1
    · exact .head hp.1.1 (ih hp.2 hc)

/-- The members of a ring are what the head leads to. -/
theorem Ring.mem_iff_reach (hr : L.Ring h l) {c : α} (hc : c ≠ h) :
    c ∈ l ↔ Relation.TransGen L.Step h c := by
  refine ⟨hr.reach, fun hreach => ?_⟩
  exact (List.mem_cons.mp (hr.mem_of_reach hreach)).resolve_left hc

/-- No other node leads to `a`. -/
def Detached (L : Links α) (a : α) : Prop :=
  L.Idle a ∧ ∀ b, b ≠ a → L.next b ≠ some a ∧ L.prev b ≠ some a

/-- Both directions agree about the neighbours of `a`. -/
def Agrees (L : Links α) (a : α) : Prop :=
  ∀ b, (L.next b = some a ↔ L.prev a = some b) ∧ (L.prev b = some a ↔ L.next a = some b)

theorem Idle.detached (hi : L.Idle a) (ha : L.Agrees a) : L.Detached a := by
  refine ⟨hi, fun b hb => ⟨fun hn => ?_, fun hp => ?_⟩⟩
  · have hprev := (ha b).1.mp hn
    rcases hi with ⟨-, hnone⟩ | ⟨-, hself⟩
    · cases hprev.symm.trans hnone
    · exact hb (Option.some.inj (hprev.symm.trans hself))
  · have hnext := (ha b).2.mp hp
    rcases hi with ⟨hnone, -⟩ | ⟨hself, -⟩
    · cases hnext.symm.trans hnone
    · exact hb (Option.some.inj (hnext.symm.trans hself))

theorem Detached.agrees (h : L.Detached a) : L.Agrees a := by
  obtain ⟨hi, hother⟩ := h
  intro b
  by_cases hb : b = a
  · subst hb
    rcases hi with ⟨hn, hp⟩ | ⟨hn, hp⟩ <;> simp [hn, hp]
  · obtain ⟨hn, hp⟩ := hother b hb
    rcases hi with ⟨hn', hp'⟩ | ⟨hn', hp'⟩ <;> simp [hn, hp, hn', hp', Ne.symm hb]

/-- Nothing reaches a detached node. -/
theorem Detached.not_reach (h : L.Detached a) (hb : b ≠ a) :
    ¬ Relation.TransGen L.Step b a := by
  intro hreach
  induction hreach using Relation.TransGen.head_induction_on with
  | single hs => exact (h.2 _ hb).1 hs
  | @head x y hs _ ih =>
    refine ih ?_
    rintro rfl
    exact (h.2 x hb).1 hs

section Splice

variable [DecidableEq α]

/-- The node becomes its own neighbour on both sides. -/
def selfLink (L : Links α) (a : α) : Links α := (L.setNext a (some a)).setPrev a (some a)

/-- `new` comes between `p` and `n`. -/
def spliceIn (L : Links α) (new p n : α) : Links α :=
  (((L.setNext new (some n)).setPrev new (some p)).setNext p (some new)).setPrev n (some new)

/-- `p` and `n` become neighbours and `a` is left linked to itself. -/
def spliceOut (L : Links α) (a p n : α) : Links α :=
  ((L.setNext p (some n)).setPrev n (some p)).selfLink a

theorem spliceIn_next (new p n y : α) : (L.spliceIn new p n).next y =
    if y = p then some new else if y = new then some n else L.next y := by
  simp only [spliceIn, setNext, setPrev, Function.update_apply]

theorem spliceIn_prev (new p n y : α) : (L.spliceIn new p n).prev y =
    if y = n then some new else if y = new then some p else L.prev y := by
  simp only [spliceIn, setNext, setPrev, Function.update_apply]

theorem spliceOut_next (a p n y : α) : (L.spliceOut a p n).next y =
    if y = a then some a else if y = p then some n else L.next y := by
  simp only [spliceOut, selfLink, setNext, setPrev, Function.update_apply]

theorem spliceOut_prev (a p n y : α) : (L.spliceOut a p n).prev y =
    if y = a then some a else if y = n then some p else L.prev y := by
  simp only [spliceOut, selfLink, setNext, setPrev, Function.update_apply]

/-- Splicing a self-linked node out changes nothing. -/
theorem spliceOut_self (hn : L.next a = some a) (hp : L.prev a = some a) :
    L.spliceOut a a a = L := by
  have hnext : (L.spliceOut a a a).next = L.next := by
    funext y
    rw [spliceOut_next]
    split
    · next e => rw [e, hn]
    · rfl
  have hprev : (L.spliceOut a a a).prev = L.prev := by
    funext y
    rw [spliceOut_prev]
    split
    · next e => rw [e, hp]
    · rfl
  rw [show L.spliceOut a a a = ⟨(L.spliceOut a a a).next, (L.spliceOut a a a).prev⟩ from rfl,
    hnext, hprev]

/-- Another node is spliced in, between nodes other than `a`. -/
theorem Detached.spliceIn (h : L.Detached a) {new p n : α} (hnew : new ≠ a) (hp : p ≠ a)
    (hn : L.next p = some n) : (L.spliceIn new p n).Detached a := by
  have hna : n ≠ a := fun e => (h.2 p hp).1 (e ▸ hn)
  refine ⟨?_, fun b hb => ?_⟩
  · unfold Idle
    rw [spliceIn_next, spliceIn_prev, if_neg hp.symm, if_neg hnew.symm, if_neg hna.symm,
      if_neg hnew.symm]
    exact h.1
  · rw [spliceIn_next, spliceIn_prev]
    obtain ⟨hnext, hprev⟩ := h.2 b hb
    constructor
    · split
      · simpa using hnew
      · split
        · simpa using hna
        · exact hnext
    · split
      · simpa using hnew
      · split
        · simpa using hp
        · exact hprev

/-- Another node is spliced out. -/
theorem Detached.spliceOut (h : L.Detached a) {c p n : α} (hc : c ≠ a) (hp : L.prev c = some p)
    (hn : L.next c = some n) : (L.spliceOut c p n).Detached a := by
  have hpa : p ≠ a := fun e => (h.2 c hc).2 (e ▸ hp)
  have hna : n ≠ a := fun e => (h.2 c hc).1 (e ▸ hn)
  refine ⟨?_, fun b hb => ?_⟩
  · unfold Idle
    rw [spliceOut_next, spliceOut_prev, if_neg hc.symm, if_neg hc.symm, if_neg hpa.symm,
      if_neg hna.symm]
    exact h.1
  · rw [spliceOut_next, spliceOut_prev]
    obtain ⟨hnext, hprev⟩ := h.2 b hb
    constructor
    · split
      · simpa using hc
      · split
        · simpa using hna
        · exact hnext
    · split
      · simpa using hc
      · split
        · simpa using hpa
        · exact hprev

/-- Splicing a node out detaches it, when its neighbours are those that lead to it. -/
theorem Agrees.spliceOut (h : L.Agrees a) {p n : α} (hp : L.prev a = some p)
    (hn : L.next a = some n) : (L.spliceOut a p n).Detached a := by
  refine ⟨.inr ⟨by simp [spliceOut_next], by simp [spliceOut_prev]⟩, fun b hb => ?_⟩
  rw [spliceOut_next, spliceOut_prev, if_neg hb, if_neg hb]
  constructor
  · split
    · next hbp =>
      -- the successor is not the node itself, or the predecessor would be too
      intro hna
      have hself := (h a).1.mp (hn.trans hna)
      exact hb (hbp.trans (Option.some.inj (hp.symm.trans hself)))
    · next hbp =>
      intro hna
      exact hbp (Option.some.inj (((h b).1.mp hna).symm.trans hp))
  · split
    · next hbn =>
      intro hpa
      have hself := (h a).2.mp (hp.trans hpa)
      exact hb (hbn.trans (Option.some.inj (hn.symm.trans hself)))
    · next hbn =>
      intro hpa
      exact hbn (Option.some.inj (((h b).2.mp hpa).symm.trans hn))

/-- A node spliced in right behind the head comes first. -/
theorem Ring.spliceIn (hr : L.Ring h l) (hl : (h :: l).Nodup) {new : α} (hnew : new ∉ h :: l) :
    (L.spliceIn new h (l.headD h)).Ring h (new :: l) := by
  have hne : new ≠ h := fun e => hnew (by simp [e])
  have hhead : new ≠ l.headD h := fun e => hnew (e ▸ headD_mem)
  refine ⟨⟨by simp [spliceIn_next], by rw [spliceIn_prev, if_neg hhead, if_pos rfl]⟩, ?_⟩
  cases l with
  | nil => exact ⟨by simp [spliceIn_next, hne], by simp [spliceIn_prev]⟩
  | cons x l =>
    obtain ⟨hx, hr⟩ := hr
    refine ⟨⟨by simp [spliceIn_next, hne], by simp [spliceIn_prev]⟩, hr.congr ?_ ?_⟩
    · intro y hy
      have hyh : y ≠ h := by rintro rfl; exact (List.nodup_cons.mp hl).1 hy
      have hyn : y ≠ new := by rintro rfl; exact hnew (List.mem_cons_of_mem _ hy)
      simp [spliceIn_next, hyh, hyn]
    · intro y hy
      have hyx : y ≠ x := by
        rintro rfl
        simp only [List.nodup_cons, List.mem_cons, not_or] at hl
        rcases List.mem_append.mp hy with hy | hy
        · exact hl.2.1 hy
        · exact hl.1.1 (List.mem_singleton.mp hy).symm
      have hyn : y ≠ new := by rintro rfl; exact hnew (by simp at hy ⊢; tauto)
      simp [spliceIn_prev, hyx, hyn]

/-- Two paths that meet in `a` are one path once `a` is spliced out. -/
theorem Path.spliceOut (hp : L.Path h l a) (hq : L.Path a m b)
    (hnodup : (h :: l ++ a :: m).Nodup) (hb : b ∉ l ++ a :: m) :
    (L.spliceOut a (l.getLastD h) (m.headD b)).Path h (l ++ m) b := by
  induction l generalizing h with
  | nil =>
    have hha : h ≠ a := by rintro rfl; simp at hnodup
    cases m with
    | nil =>
      have hba : b ≠ a := by rintro rfl; simp at hb
      exact ⟨by simp [spliceOut_next, hha], by simp [spliceOut_prev, hba]⟩
    | cons x m =>
      have hxa : x ≠ a := by rintro rfl; simp at hnodup
      refine ⟨⟨by simp [spliceOut_next, hha], by simp [spliceOut_prev, hxa]⟩, hq.2.congr ?_ ?_⟩
      · intro y hy
        have hya : y ≠ a := by rintro rfl; simp at hnodup hy; tauto
        have hyh : y ≠ h := by rintro rfl; simp at hnodup hy; tauto
        simp [spliceOut_next, hya, hyh]
      · intro y hy
        have hya : y ≠ a := by rintro rfl; simp at hnodup hy hb; tauto
        have hyx : y ≠ x := by rintro rfl; simp at hnodup hy hb; tauto
        simp [spliceOut_prev, hya, hyx]
  | cons x l ih =>
    obtain ⟨hx, hp⟩ := hp
    have hlast : (x :: l).getLastD h = l.getLastD x := by cases l <;> rfl
    have hmem : l.getLastD x ∈ x :: l := getLastD_mem
    have hhead : m.headD b ∈ b :: m := headD_mem
    rw [hlast]
    refine ⟨⟨?_, ?_⟩, ih hp (List.nodup_cons.mp hnodup).2 (fun h => hb (by simp at h ⊢; tauto))⟩
    · have hha : h ≠ a := by rintro rfl; simp at hnodup
      have hhu : h ≠ l.getLastD x := by
        intro e
        rw [← e] at hmem
        exact (List.nodup_cons.mp hnodup).1 (by simp at hmem ⊢; tauto)
      simp only [spliceOut_next, hha, hhu, if_false]
      exact hx.1
    · have hxa : x ≠ a := by rintro rfl; simp at hnodup
      have hxw : x ≠ m.headD b := by
        intro e
        rw [← e] at hhead
        rcases List.mem_cons.mp hhead with rfl | hm
        · simp at hb
        · simp at hnodup; tauto
      simp only [spliceOut_prev, hxa, hxw, if_false]
      exact hx.2

end Splice

end Links

/-! ## Many rings -/

/-- The heads `H` hold the lists `Q`, and all other nodes are idle. -/
structure Rings {α : Type*} (L : Links α) (H : α → Prop) (Q : α → List α) : Prop where
  ring : ∀ h, H h → L.Ring h (Q h)
  member : ∀ h a, H h → a ∈ Q h → ¬ H a
  apart : ∀ h g a, H h → H g → a ∈ Q h → a ∈ Q g → h = g
  nodup : ∀ h, H h → (Q h).Nodup
  idle : ∀ a, ¬ H a → (∀ h, H h → a ∉ Q h) → L.Idle a

namespace Rings

variable {α : Type*} {L : Links α} {H : α → Prop} {Q : α → List α} {h a : α}

theorem head_nodup (hR : Rings L H Q) (hh : H h) : (h :: Q h).Nodup :=
  List.nodup_cons.mpr ⟨fun hm => hR.member h h hh hm hh, hR.nodup h hh⟩

theorem next_head (hR : Rings L H Q) (hh : H h) : L.next h = some ((Q h).headD h) :=
  (hR.ring h hh).next_eq

theorem next_head_self (hR : Rings L H Q) (hh : H h) : L.next h = some h ↔ Q h = [] :=
  (hR.ring h hh).next_self_iff (List.nodup_cons.mp (hR.head_nodup hh)).1

theorem mem_iff_reach (hR : Rings L H Q) (hh : H h) (ha : ¬ H a) :
    a ∈ Q h ↔ Relation.TransGen L.Step h a :=
  (hR.ring h hh).mem_iff_reach fun e => ha (e ▸ hh)

/-- The two directions agree everywhere. -/
theorem agrees (hR : Rings L H Q) (a : α) : L.Agrees a := by
  have hplace : ∀ x, (∃ h, H h ∧ x ∈ h :: Q h) ∨ L.Idle x := by
    intro x
    by_cases hx : H x
    · exact .inl ⟨x, hx, List.mem_cons_self⟩
    · by_cases hin : ∃ h, H h ∧ x ∈ Q h
      · obtain ⟨h, hh, hm⟩ := hin
        exact .inl ⟨h, hh, List.mem_cons_of_mem h hm⟩
      · exact .inr (hR.idle x hx fun h hh hm => hin ⟨h, hh, hm⟩)
  have hnext : ∀ x y, L.next x = some y → L.prev y = some x := by
    intro x y hxy
    rcases hplace x with ⟨h, hh, hm⟩ | ⟨hn, -⟩ | ⟨hn, hp⟩
    · obtain ⟨z, hz⟩ := (hR.ring h hh).joined_next hm
      cases hxy.symm.trans hz.1
      exact hz.2
    · cases hxy.symm.trans hn
    · cases hxy.symm.trans hn
      exact hp
  have hprev : ∀ x y, L.prev x = some y → L.next y = some x := by
    intro x y hxy
    rcases hplace x with ⟨h, hh, hm⟩ | ⟨-, hp⟩ | ⟨hn, hp⟩
    · obtain ⟨z, hz⟩ := (hR.ring h hh).joined_prev (x := x) (by simp at hm ⊢; tauto)
      cases hxy.symm.trans hz.2
      exact hz.1
    · cases hxy.symm.trans hp
    · cases hxy.symm.trans hp
      exact hn
  exact fun b => ⟨⟨hnext b a, hprev a b⟩, ⟨hprev b a, hnext a b⟩⟩

/-- A node of no list. -/
def Free (H : α → Prop) (Q : α → List α) (a : α) : Prop := ¬ H a ∧ ∀ g, H g → a ∉ Q g

theorem Free.not_mem {x g : α} (hx : Free H Q x) (hg : H g) : x ∉ g :: Q g := by
  intro hm
  rcases List.mem_cons.mp hm with rfl | hm
  · exact hx.1 hg
  · exact hx.2 g hg hm

theorem detached (hR : Rings L H Q) (ha : Free H Q a) : L.Detached a :=
  (hR.idle a ha.1 ha.2).detached (hR.agrees a)

theorem apart_head (hR : Rings L H Q) {g x : α} (hh : H h) (hg : H g) (hne : g ≠ h)
    (hx : x ∈ g :: Q g) : x ∉ h :: Q h := by
  intro hxh
  rcases List.mem_cons.mp hx with rfl | hx
  · rcases List.mem_cons.mp hxh with rfl | hxh
    · exact hne rfl
    · exact hR.member h x hh hxh hg
  · rcases List.mem_cons.mp hxh with rfl | hxh
    · exact hR.member g x hg hx hh
    · exact hne (hR.apart g h x hg hh hx hxh)

variable [DecidableEq α]

/-- One ring gets a new list, made of its own nodes and of nodes of no list,
by link changes at such nodes only. -/
theorem replace (hR : Rings L H Q) (hh : H h) {L' : Links α} {m : List α} (hring : L'.Ring h m)
    (hm : m.Nodup) (hmem : ∀ x ∈ m, x ∈ Q h ∨ Free H Q x)
    (hsame : ∀ x, x ∈ h :: Q h ∨ Free H Q x ∨ (L'.next x = L.next x ∧ L'.prev x = L.prev x))
    (hidle : ∀ x, x ∉ h :: m → x ∈ Q h ∨ L.Idle x → L'.Idle x) :
    Rings L' H (Function.update Q h m) := by
  constructor
  · intro g hg
    by_cases hgh : g = h
    · subst hgh
      rwa [Function.update_self]
    · rw [Function.update_of_ne hgh]
      have hkeep : ∀ x ∈ g :: Q g, L'.next x = L.next x ∧ L'.prev x = L.prev x := by
        intro x hx
        rcases hsame x with h1 | h1 | h1
        · exact absurd h1 (hR.apart_head hh hg hgh hx)
        · exact absurd hx (h1.not_mem hg)
        · exact h1
      refine (hR.ring g hg).congr (fun x hx => (hkeep x hx).1) (fun x hx => (hkeep x ?_).2)
      simp only [List.mem_append, List.mem_cons, List.not_mem_nil, or_false] at hx ⊢
      tauto
  · intro g x hg hx
    by_cases hgh : g = h
    · subst hgh
      rw [Function.update_self] at hx
      rcases hmem x hx with h1 | h1
      · exact hR.member g x hg h1
      · exact h1.1
    · rw [Function.update_of_ne hgh] at hx
      exact hR.member g x hg hx
  · have hnot : ∀ g x, H g → g ≠ h → x ∈ Q g → x ∉ m := by
      intro g x hg hgh hx hxm
      rcases hmem x hxm with h1 | h1
      · exact hgh (hR.apart g h x hg hh hx h1)
      · exact h1.2 g hg hx
    intro g g' x hg hg' hx hx'
    by_cases hgh : g = h <;> by_cases hgh' : g' = h
    · rw [hgh, hgh']
    · subst hgh
      rw [Function.update_self] at hx
      rw [Function.update_of_ne hgh'] at hx'
      exact absurd hx (hnot g' x hg' hgh' hx')
    · subst hgh'
      rw [Function.update_self] at hx'
      rw [Function.update_of_ne hgh] at hx
      exact absurd hx' (hnot g x hg hgh hx)
    · rw [Function.update_of_ne hgh] at hx
      rw [Function.update_of_ne hgh'] at hx'
      exact hR.apart g g' x hg hg' hx hx'
  · intro g hg
    by_cases hgh : g = h
    · subst hgh
      rwa [Function.update_self]
    · rw [Function.update_of_ne hgh]
      exact hR.nodup g hg
  · intro x hx hout
    have hxm : x ∉ h :: m := by
      simp only [List.mem_cons, not_or]
      refine ⟨fun e => hx (e ▸ hh), ?_⟩
      have hxh := hout h hh
      rwa [Function.update_self] at hxh
    refine hidle x hxm ?_
    by_cases hxQ : x ∈ Q h
    · exact .inl hxQ
    · refine .inr (hR.idle x hx fun g hg => ?_)
      by_cases hgh : g = h
      · rwa [hgh]
      · have hxg := hout g hg
        rwa [Function.update_of_ne hgh] at hxg

/-- A node of no list can be spliced in behind a head. -/
theorem push (hR : Rings L H Q) (hh : H h) {new : α} (hnew : Free H Q new) :
    Rings (L.spliceIn new h ((Q h).headD h)) H (Function.update Q h (new :: Q h)) := by
  have hnotin := hnew.not_mem hh
  have hhead : (Q h).headD h ∈ h :: Q h := Links.headD_mem
  refine hR.replace hh ((hR.ring h hh).spliceIn (hR.head_nodup hh) hnotin) ?_ ?_ ?_ ?_
  · exact List.nodup_cons.mpr ⟨hnew.2 h hh, hR.nodup h hh⟩
  · intro x hx
    rcases List.mem_cons.mp hx with rfl | hx
    · exact .inr hnew
    · exact .inl hx
  · intro x
    by_cases hxnew : x = new
    · exact .inr (.inl (hxnew ▸ hnew))
    by_cases hxh : x ∈ h :: Q h
    · exact .inl hxh
    · have hne : x ≠ h := fun e => hxh (by simp [e])
      have hnf : x ≠ (Q h).headD h := fun e => hxh (e ▸ hhead)
      rw [Links.spliceIn_next, Links.spliceIn_prev, if_neg hne, if_neg hxnew, if_neg hnf,
        if_neg hxnew]
      exact .inr (.inr ⟨rfl, rfl⟩)
  · intro x hx hidle
    simp only [List.mem_cons, not_or] at hx
    have hnf : x ≠ (Q h).headD h := by
      intro e
      rcases List.mem_cons.mp (e ▸ hhead) with e | hm
      · exact hx.1 e
      · exact hx.2.2 hm
    have hL := hidle.resolve_left hx.2.2
    unfold Links.Idle at hL ⊢
    rwa [Links.spliceIn_next, Links.spliceIn_prev, if_neg hx.1, if_neg hx.2.1, if_neg hnf,
      if_neg hx.2.1]

/-- A member of a ring can be spliced out; it is then linked to itself. -/
theorem remove (hR : Rings L H Q) (hh : H h) (ha : a ∈ Q h) :
    ∃ p n, L.prev a = some p ∧ L.next a = some n ∧
      Rings (L.spliceOut a p n) H (Function.update Q h ((Q h).erase a)) := by
  obtain ⟨l, m, hQ⟩ := List.append_of_mem ha
  have hnodup := hR.head_nodup hh
  have hring := hR.ring h hh
  rw [hQ] at hnodup hring
  have hal : a ∉ l := by
    have hlm := (List.nodup_cons.mp hnodup).2
    rw [List.nodup_append] at hlm
    exact fun hm => hlm.2.2 a hm a (by simp) rfl
  have herase : (Q h).erase a = l ++ m := by
    rw [hQ, List.erase_append_right _ hal, List.erase_cons_head]
  obtain ⟨hl, hm⟩ := Links.path_append.mp hring
  have hp : l.getLastD h ∈ h :: Q h := by
    have := Links.getLastD_mem (a := h) (l := l)
    rw [hQ]
    simp only [List.mem_cons, List.mem_append] at this ⊢
    tauto
  have hn : m.headD h ∈ h :: Q h := by
    have := Links.headD_mem (a := h) (l := m)
    rw [hQ]
    simp only [List.mem_cons, List.mem_append] at this ⊢
    tauto
  refine ⟨l.getLastD h, m.headD h, hl.prev_eq, hm.next_eq, ?_⟩
  refine hR.replace hh ?_ ((hR.nodup h hh).erase a) ?_ ?_ ?_
  · rw [herase]
    exact hl.spliceOut hm hnodup (List.nodup_cons.mp hnodup).1
  · exact fun x hx => .inl (List.mem_of_mem_erase hx)
  · intro x
    by_cases hxh : x ∈ h :: Q h
    · exact .inl hxh
    · have hxa : x ≠ a := fun e => hxh (by simp [e, ha])
      have hxp : x ≠ l.getLastD h := fun e => hxh (e ▸ hp)
      have hxn : x ≠ m.headD h := fun e => hxh (e ▸ hn)
      rw [Links.spliceOut_next, Links.spliceOut_prev, if_neg hxa, if_neg hxa, if_neg hxp,
        if_neg hxn]
      exact .inr (.inr ⟨rfl, rfl⟩)
  · intro x hx hidle
    unfold Links.Idle at hidle ⊢
    rw [Links.spliceOut_next, Links.spliceOut_prev]
    by_cases hxa : x = a
    · exact .inr ⟨by rw [if_pos hxa, hxa], by rw [if_pos hxa, hxa]⟩
    simp only [List.mem_cons, not_or] at hx
    have hxQ : x ∉ Q h := fun e => hx.2 ((List.mem_erase_of_ne hxa).mpr e)
    have hxring : x ∉ h :: Q h := by
      simp only [List.mem_cons, not_or]
      exact ⟨hx.1, hxQ⟩
    have hxp : x ≠ l.getLastD h := fun e => hxring (e ▸ hp)
    have hxn : x ≠ m.headD h := fun e => hxring (e ▸ hn)
    rw [if_neg hxa, if_neg hxa, if_neg hxp, if_neg hxn]
    exact hidle.resolve_left hxQ

end Rings

end Tern.Lib
