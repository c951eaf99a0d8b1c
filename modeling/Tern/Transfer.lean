import Tern.Syscall

/-! What a message transfer may write. The copy takes as many words as the
9-bit length says, up to 511, while the message registers are 504: a longer
message runs over the badge, the capability words and the receive path of the
receiver's own buffer. Nothing outside the message and the badge changes
exactly if the words that follow are the same in both buffers. -/

namespace Tern

open Cdt

/-- The slot that the receiver's receive path names. -/
def Designated (k : Kernel) (receiver slot : Word) : Prop :=
  ∃ buffer, (k.tcbs receiver).ipcBuffer = some buffer ∧
    lookupReceiveSlot k receiver buffer = .ok (.ok slot)

/-- The transfer leaves the receiver's transfer settings alone: in its buffer
only message registers and the badge change, and no capability arrives in a slot
other than the one the receiver had named. -/
structure Confined (k k' : Kernel) (receiver : Word) (tag : MessageTag) : Prop where
  buffer : ∀ buffer, (k.tcbs receiver).ipcBuffer = some buffer →
    ∀ i, min tag.length.toNat messageMaxLength ≤ i → i ≠ senderBadge →
      k'.buffers buffer i = k.buffers buffer i
  slot : ∀ a, (k'.slots a).cap ≠ (k.slots a).cap → Designated k receiver a

/-- The words of a long message behind the badge are the same in both buffers. -/
def SameTail (k : Kernel) (sender receiver : Word) (tag : MessageTag) : Prop :=
  ∀ senderBuffer buffer, (k.tcbs sender).ipcBuffer = some senderBuffer →
    (k.tcbs receiver).ipcBuffer = some buffer →
    ∀ i, senderBadge < i → i < tag.length.toNat →
      k.buffers senderBuffer i = k.buffers buffer i

/-! ## What a transfer does -/

theorem setIpcResult_frame {k k' : Kernel} {t : Word} {tag : MessageTag}
    (h : setIpcResult k t tag = .ok k') : k'.buffers = k.buffers ∧ k'.slots = k.slots := by
  simp only [setIpcResult, bind_eq_ok, pure_eq_ok] at h
  obtain ⟨f, -, rfl⟩ := h
  split <;> exact ⟨rfl, rfl⟩

theorem copyCap_cap_ne {s : Slots} {dest src mask a : Word}
    (h : ((copyCap s dest src mask).2 a).cap ≠ (s a).cap) : a = dest := by
  rcases copyCap_cases s dest src mask with ⟨r, hr, -⟩ | ⟨-, -, hr⟩
  · rw [hr] at h
    exact absurd rfl h
  · rw [hr] at h
    by_contra hne
    simp [hne] at h

theorem transferCap_frame {k k' : Kernel} {sender receiver senderBuffer buffer : Word}
    {tag res : MessageTag}
    (h : transferCap k sender receiver senderBuffer buffer tag = .ok (res, k')) :
    k'.buffers = k.buffers ∧
      ∀ a, (k'.slots a).cap ≠ (k.slots a).cap →
        lookupReceiveSlot k receiver buffer = .ok (.ok a) := by
  unfold transferCap at h
  split at h
  · cases h
    exact ⟨rfl, fun a ha => absurd rfl ha⟩
  simp only [bind_eq_ok] at h
  obtain ⟨x, -, h⟩ := h
  cases x with
  | error e =>
    cases h
    exact ⟨rfl, fun a ha => absurd rfl ha⟩
  | ok cap =>
    simp only [bind_eq_ok] at h
    obtain ⟨y, hy, h⟩ := h
    cases y with
    | error e =>
      cases h
      exact ⟨rfl, fun a ha => absurd rfl ha⟩
    | ok slot =>
      cases h
      refine ⟨rfl, fun a ha => ?_⟩
      rw [copyCap_cap_ne ha]
      exact hy

/-- A transfer in terms of the two buffers: the message is copied and the badge
written; then a capability may go into the slot that the receive path, as it
stands by then, names. -/
theorem transferMessage_frame {k k' : Kernel} {sender receiver badge : Word}
    {tag res : MessageTag}
    (h : transferMessage k sender receiver badge tag = .ok (res, k')) :
    ∃ buffer senderBuffer k₁, (k.tcbs receiver).ipcBuffer = some buffer ∧
      (tag.length ≠ 0 → (k.tcbs sender).ipcBuffer = some senderBuffer) ∧
      k₁.slots = k.slots ∧ k₁.buffers buffer = Function.update
        (copyMessage (k.buffers senderBuffer) (k.buffers buffer) tag.length.toNat)
        senderBadge badge ∧
      k'.buffers = k₁.buffers ∧
      ∀ a, (k'.slots a).cap ≠ (k.slots a).cap →
        lookupReceiveSlot k₁ receiver buffer = .ok (.ok a) := by
  simp only [transferMessage, bind_eq_ok, deref_eq_ok] at h
  obtain ⟨buffer, hbuffer, senderBuffer, hsender, ⟨tag₂, k₂⟩, hcap, k₃, hset, hk'⟩ := h
  cases hk'
  obtain ⟨hbuf, hslots⟩ := setIpcResult_frame hset
  have hreply : k'.buffers = k₂.buffers ∧ k'.slots = k₂.slots := by
    rw [hbuf, hslots, setReplyTo]
    split <;> exact ⟨rfl, rfl⟩
  let msg := copyMessage (k.buffers senderBuffer) (k.buffers buffer) tag.length.toNat
  let k₁ := { k with buffers := Function.update k.buffers buffer msg }.setBufferWord buffer
    senderBadge badge
  refine ⟨buffer, senderBuffer, k₁, hbuffer, ?_, rfl, ?_, ?_⟩
  · intro hlen
    rw [Tern.senderBuffer, if_neg (fun hc => hlen hc.1)] at hsender
    exact (deref_eq_ok _ _).mp hsender
  · simp [k₁, msg, Kernel.setBufferWord]
  · rw [hreply.1, hreply.2]
    exact transferCap_frame hcap

/-! ## When the transfer is confined -/

/-- A message transfer is confined exactly if a message longer than the message
registers and the badge repeats, behind the badge, what the receiver's buffer
already holds. -/
theorem transfer_confined_iff {k k' : Kernel} {sender receiver badge : Word}
    {tag res : MessageTag}
    (h : transferMessage k sender receiver badge tag = .ok (res, k')) :
    Confined k k' receiver tag ↔ SameTail k sender receiver tag := by
  obtain ⟨buffer, senderBuffer, k₁, hbuffer, hsender, hslots₁, hbuf₁, hbuf, hcap⟩ :=
    transferMessage_frame h
  constructor
  · intro hc sb rb hsb hrb i hlow hhigh
    have hlen : tag.length ≠ 0 := by
      intro e
      rw [e] at hhigh
      exact absurd hhigh (Nat.not_lt_zero _)
    obtain rfl : buffer = rb := Option.some.inj (hbuffer.symm.trans hrb)
    obtain rfl : senderBuffer = sb := Option.some.inj ((hsender hlen).symm.trans hsb)
    have hsame := hc.buffer buffer hrb i
      (le_trans (Nat.min_le_right _ _) (le_of_lt hlow)) (Nat.ne_of_gt hlow)
    rw [hbuf, hbuf₁, Function.update_of_ne (Nat.ne_of_gt hlow), copyMessage, if_pos hhigh] at hsame
    exact hsame
  · intro htail
    have hkeep : ∀ i, min tag.length.toNat messageMaxLength ≤ i → i ≠ senderBadge →
        k₁.buffers buffer i = k.buffers buffer i := by
      intro i hi hne
      rw [hbuf₁, Function.update_of_ne hne, copyMessage]
      split
      · next hlt =>
        have hlow : senderBadge < i := by
          simp only [messageMaxLength, senderBadge] at hi hne ⊢
          omega
        have hlen : tag.length ≠ 0 := by
          intro e
          rw [e] at hlt
          exact absurd hlt (Nat.not_lt_zero _)
        exact htail _ _ (hsender hlen) hbuffer i hlow hlt
      · rfl
    constructor
    · intro b hb i hi hne
      cases hbuffer.symm.trans hb
      rw [hbuf]
      exact hkeep i hi hne
    · intro a ha
      refine ⟨buffer, hbuffer, ?_⟩
      have hpath : lookupReceiveSlot k₁ receiver buffer = lookupReceiveSlot k receiver buffer := by
        have hword : ∀ i, senderBadge < i → k₁.buffers buffer i = k.buffers buffer i :=
          fun i hi => hkeep i (le_trans (Nat.min_le_right _ _) (le_of_lt hi)) (Nat.ne_of_gt hi)
        simp only [lookupReceiveSlot, hslots₁]
        rw [hword receiveCnode (by decide), hword receiveIndex (by decide),
          hword receiveDepth (by decide)]
      rw [← hpath]
      exact hcap a ha

/-! ## Two threads -/

/-- A sender whose buffer is full of sevens, and a receiver. -/
def twoThreads : Kernel :=
  { Kernel.blank with
    tcbs := fun t => { ipcBuffer := some (t + 0x1000#64) }
    buffers := fun b _ => if b = 0x2000#64 then 7#64 else 0#64 }

/-- The sender at 0x1000 and the receiver at 0x8000. -/
def longMessage : MessageTag := { length := 511, capsUnwrapped := 0, extraCaps := 0, label := 0 }

theorem transfer_confined_short :
    ∃ res k', transferMessage twoThreads 0x1000#64 0x8000#64 0#64
      { longMessage with length := 505 } = .ok (res, k') ∧
      Confined twoThreads k' 0x8000#64 { longMessage with length := 505 } := by
  refine ⟨_, _, rfl, (transfer_confined_iff rfl).mpr ?_⟩
  intro _ _ _ _ i hlow hhigh
  have hlen : ({ longMessage with length := 505 } : MessageTag).length.toNat = 505 := rfl
  rw [hlen] at hhigh
  simp only [senderBadge] at hlow
  omega

/-- A message of 511 words overwrites the whole receive path. -/
theorem long_message_overwrites_receive_path :
    ∃ res k', transferMessage twoThreads 0x1000#64 0x8000#64 0#64 longMessage = .ok (res, k') ∧
      ¬ Confined twoThreads k' 0x8000#64 longMessage := by
  refine ⟨_, _, rfl, fun hc => ?_⟩
  have hword := hc.buffer 0x9000#64 rfl receiveIndex (by decide) (by decide)
  revert hword
  decide

end Tern
