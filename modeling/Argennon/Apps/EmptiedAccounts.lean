import Argennon.Apps.Payment

/- What an account loses when it pays its whole balance.

   `transfer` ends the chunk of such a sender where the balance was. A normal account has nothing
   behind its balance. The nonces in slots and the owner of an account of an application are there:
   they are gone with the balance, and when the account is credited again it is as if they had never
   been used. -/
namespace Argennon

namespace Payment
variable {heap heap' : Heap} (p : Payment heap heap')

/-- The payment cuts off no slot: the account is a normal one, or it keeps a part of its balance. -/
def KeepsSlots : Prop :=
  minNonce ≤ decisionNonceOf p.before.content ∨ p.amount ≠ p.before.balance

end Payment

/-! ## Messages -/

section
variable {heap heap' : Heap} {account : LongID} {length : Nat}

/-- Nothing but a payment of the whole balance makes the chunk of an account smaller. -/
theorem LedgerStep.chunkSize_le (h : LedgerStep heap heap') (account : LongID) :
    (heap (accountChunk account)).chunkSize ≤ (heap' (accountChunk account)).chunkSize ∨
      ∃ p : Payment heap heap', p.sender = account ∧ p.amount = p.before.balance := by
  cases h with
  | elsewhere hvisited => exact .inl (Nat.le_of_eq (hvisited account).chunkSize.symm)
  | request req text status hreq hrun =>
    obtain ⟨-, hsame⟩ | ⟨hstatus, hstep⟩ := hreq.step hrun
    · exact .inl (by rw [hsame])
    cases hstep with
    | transfer hmethod ht =>
      -- the step is a payment
      let p : Payment heap heap' := ⟨req, text, 200, hreq, hmethod, hrun, hstatus⟩
      by_cases hs : p.sender = account
      · by_cases hall : p.amount = p.before.balance
        · exact .inr ⟨p, hs, hall⟩
        · obtain ⟨offset, hplace, -⟩ := p.exists_place
          have hsize := p.chunkSize_after hplace
          rw [if_neg hall] at hsize
          exact .inl (by rw [← hs]; exact Nat.le_of_eq hsize.symm)
      by_cases hr : text.recipient.value = account
      · obtain ⟨_, hcredited⟩ := ht.credited
        rw [← hr, hcredited.chunkSize]
        exact .inl (Nat.le_max_left _ _)
      · rw [ht.others _ (fun heq => hs (accountChunk_injective heq).symm) fun heq =>
          hr (accountChunk_injective heq).symm]
        exact .inl (Nat.le_refl _)
    | create _ hcreated hothers =>
      by_cases ha : text.account.value = account
      · -- there was not even a decision nonce
        rw [← ha, hcreated.chunkSize]
        exact .inl (Nat.le_trans (Nat.le_of_lt hcreated.absent) (by decide))
      · rw [hothers _ fun heq => ha (accountChunk_injective heq).symm]
        exact .inl (Nat.le_refl _)
    | taken _ _ hsame => exact .inl (by rw [hsame])
    | other _ hsame => exact .inl (by rw [hsame])

/-- A step in which the account does not pay its whole balance, unless it is a normal one. -/
def SlotsSpared (account : LongID) (heap heap' : Heap) : Prop :=
  LedgerStep heap heap' ∧ ∀ p : Payment heap heap', p.sender = account → p.KeepsSlots

/-- A step that does not make the chunk smaller. -/
theorem LedgerStep.slotsSpared (h : LedgerStep heap heap')
    (hle : (heap (accountChunk account)).chunkSize ≤ (heap' (accountChunk account)).chunkSize) :
    SlotsSpared account heap heap' := by
  refine ⟨h, fun p hsender => .inr fun hall => ?_⟩
  obtain ⟨offset, hplace, hpresent⟩ := p.exists_place
  have hsize := p.chunkSize_after hplace
  rw [if_pos hall] at hsize
  rw [← hsender] at hle
  have hle' : p.before.chunkSize ≤ p.after.chunkSize := hle
  have hpos : 0 < argBalanceSize := by decide
  omega

/-- The slot is still inside the chunk. -/
theorem SlotsSpared.inside (h : SlotsSpared account heap heap')
    (hslot : HasSlot (heap (accountChunk account)) length) :
    nonceSlot (decisionNonceOf (heap (accountChunk account)).content) length + nonce16Size ≤
      (heap' (accountChunk account)).chunkSize := by
  obtain hle | ⟨p, rfl, hall⟩ := h.1.chunkSize_le account
  · exact Nat.le_trans hslot.inside hle
  · obtain hnormal | hrest := h.2 p rfl
    · have hzero : nonceSlot (decisionNonceOf (heap (accountChunk p.sender)).content) length = 0 :=
        nonceSlot_normal hnormal length
      rw [hzero, Nat.zero_add]
      exact h.1.exist hslot.exist
    · exact absurd hall hrest

/-- A run in which the account keeps its slots. -/
theorem slot_run_spared {slot : Nat}
    (hrun : Relation.ReflTransGen (SlotsSpared account) heap heap')
    (hslot : HasSlot (heap (accountChunk account)) length)
    (hplace : nonceSlot (decisionNonceOf (heap (accountChunk account)).content) length = slot) :
    Relation.ReflTransGen (SlotKept account slot) heap heap' := by
  induction hrun with
  | refl => exact .refl
  | tail _ hstep ih =>
    obtain ⟨hmid, hmidPlace, -⟩ := slot_run ih hslot hplace
    have hinside := hstep.inside hmid
    rw [hmidPlace] at hinside
    exact ih.tail ⟨hstep.1, hinside⟩

end

/-- The message that a payment accepts is one of its sender. -/
theorem Payment.issuer {heap heap' : Heap} (p : Payment heap heap')
    (hkind : balanceOffset (decisionNonceOf p.before.content) = some ArgC.keyBalanceIndex) :
    p.message.map SignedMessage.issuerAccount = some p.sender := by
  obtain ⟨⟨text, -, hmessage⟩, -⟩ := p.consumed hkind
  rw [hmessage]
  rfl

/-- **A signed message is accepted once.** The slot of the message is inside the chunk, and neither
the payment that has accepted it nor a payment after it is one of the whole balance, unless the
account is a normal one. -/
theorem message_accepted_once {heap₁ heap₂ heap₃ heap₄ : Heap} (p : Payment heap₁ heap₂)
    (q : Payment heap₃ heap₄)
    (hp : balanceOffset (decisionNonceOf p.before.content) = some ArgC.keyBalanceIndex)
    (hq : balanceOffset (decisionNonceOf q.before.content) = some ArgC.keyBalanceIndex)
    (hinside : p.slot + nonce16Size ≤ p.before.chunkSize) (hspares : p.KeepsSlots)
    (hrun : Relation.ReflTransGen (SlotsSpared p.sender) heap₂ heap₃) : p.message ≠ q.message := by
  by_cases hsender : q.sender = p.sender
  · -- the nonce is past when the second payment is made
    obtain ⟨_, hplace, -⟩ := p.exists_place
    have hexist : nonce16Size ≤ p.before.chunkSize :=
      Nat.le_trans (Nat.le_add_left _ _) hinside
    have hafter : p.slot + nonce16Size ≤ p.after.chunkSize := by
      obtain hnormal | hrest := hspares
      · unfold Payment.slot
        rw [nonceSlot_normal hnormal, Nat.zero_add]
        exact p.ledgerStep.exist hexist
      · rw [p.chunkSize_after hplace, if_neg hrest]
        exact hinside
    obtain ⟨hslot, hsame, -⟩ := (p.consumed hp).2 hafter
    obtain ⟨-, hlt⟩ := p.nonce_lt hp hafter (slot_run_spared hrun hslot hsame)
    rw [← hsender] at hlt
    exact p.message_ne q hp hq hlt
  · -- the messages of two accounts
    intro hsame
    have hissuer := (p.issuer hp).symm.trans ((congrArg _ hsame).trans (q.issuer hq))
    exact hsender (Option.some.inj hissuer).symm

/-- The account with five slots pays three times, and keeps a part of its balance. -/
theorem message_accepted_once_slots : slotPayment.message ≠ slotPayment₂.message := by
  have hkind : balanceOffset (decisionNonceOf slotPayment₂.before.content) =
      some ArgC.keyBalanceIndex := by decide +kernel
  have hinside : slotPayment.slot + nonce16Size ≤ slotPayment.before.chunkSize := by decide +kernel
  have hrest : slotPayment.amount ≠ slotPayment.before.balance := by decide +kernel
  have hsizes : (slotAccounts₁ (accountChunk slotPayment.sender)).chunkSize ≤
      (slotAccounts₂ (accountChunk slotPayment.sender)).chunkSize := by decide +kernel
  exact message_accepted_once slotPayment slotPayment₂ slotPayment_kept.1 hkind hinside (.inr hrest)
    (.single (slotPayment₁.ledgerStep.slotsSpared hsizes))

/-! ## An account that is emptied -/

/-- The chunk of the first account may end where its balance was, and hold it again. -/
def resizableBounds : OrderedStaticMap FullID ChunkBoundsInfo :=
  .single (accountChunk 0x400000000000001) { sizeUpperBound := 90, sizeLowerBound := 66 }

theorem resizable_upper_le :
    ∀ e ∈ resizableBounds.entries, toUInt32 e.2.sizeUpperBound ≤ maxAllowedCapacity := by decide

def resizableIndex : ChunkIndex where
  chunkIndex := [accountChunk 0x400000000000001, accountChunk 0x400000000000002]
  sizeBoundsInfo := resizableBounds
  upper_le := resizable_upper_le

/-- The blocks of the first account when it pays all. -/
def emptyingBlocks : BlockMap :=
  ⟨[-1, 0, 67, 83], [⟨-67, .writable, 0⟩, ⟨2, .read_only, 0⟩, ⟨8, .writable, 0⟩,
    ⟨2, .writable, 0⟩], by decide⟩

/-- The second account pays the first one. -/
def refundAccess : AccessMapType :=
  .single argAppID ⟨[toLex (0x400000000000001, 0), toLex (0x400000000000002, 0)],
    [enlargedBlocks, normalBlocks], by decide⟩

def refundText : ArgApp.RequestText :=
  { paymentText with
    account := ⟨.found, 0x400000000000002⟩
    recipient := ⟨.found, 0x400000000000001⟩ }

/-- A request that comes with one signed message. -/
def resizingRequest (heap : Heap) (access : AccessMapType) (message : SignedMessage) : AppRequest :=
  { paymentRequest heap normalBlocks "" with
    modifier := ((resizableIndex.buildModifier heap access).toOption).getD
      { appsAccessMaps := .empty }
    signatureManager := { messages := [message] } }

/-- What the first account signs once, and the second one. -/
def emptyingMessage : SignedMessage :=
  ⟨0x400000000000001,
    "\x7b\"to\":0x400000000000002,\"amount\":2,\"forApp\":0x100000000000000,\"nonce\":0\x7d"⟩

def refundMessage : SignedMessage :=
  ⟨0x400000000000002,
    "\x7b\"to\":0x400000000000001,\"amount\":2,\"forApp\":0x100000000000000,\"nonce\":8\x7d"⟩

def emptyingRequest (heap : Heap) : AppRequest :=
  resizingRequest heap (paymentAccess emptyingBlocks) emptyingMessage

def refundRequest (heap : Heap) : AppRequest := resizingRequest heap refundAccess refundMessage

/-- The first account has five slots, of which three were used, and a balance of 2. -/
def spender : Heap := fun id =>
  if id = accountChunk 0x400000000000001 then keyAccount 1 2 [3, 0, 5, 0, 1, 0, 0, 0, 0, 0]
  else if id = accountChunk 0x400000000000002 then keyAccount minNonce 1 []
  else .empty

def emptied : Heap := heapAfter spender (emptyingRequest spender) paymentText

def refunded : Heap := heapAfter emptied (refundRequest emptied) refundText

def emptiedAgain : Heap := heapAfter refunded (emptyingRequest refunded) paymentText

theorem emptyingBlocks_access : WellFormedAccess (paymentAccess emptyingBlocks) :=
  ⟨by decide, by decide⟩

theorem refundAccess_access : WellFormedAccess refundAccess := ⟨by decide, by decide⟩

/-- The request is a payment for which a modifier is built, and it succeeds. -/
structure Resizes (heap : Heap) (access : AccessMapType) (message : SignedMessage)
    (text : ArgApp.RequestText) : Prop where
  built : (resizableIndex.buildModifier heap access).toOption.isSome
  method : text.method.value = "PATCH"
  status : (executeCode heap (resizingRequest heap access message)
    (ArgApp.dispatcher heap text)).map Prod.fst = .ok 200

theorem resizes_success : (200 : Int) < 400 := by decide

def Resizes.payment {heap : Heap} {access : AccessMapType} {message : SignedMessage}
    {text : ArgApp.RequestText} (h : Resizes heap access message text)
    (hwf : WellFormedAccess access) :
    Payment heap (heapAfter heap (resizingRequest heap access message) text) where
  req := resizingRequest heap access message
  text
  status := 200
  request := ⟨rfl, resizableIndex, heap, access, eq_getD_of_isSome h.built _, hwf, .refl _⟩
  method := h.method
  run := run_of_status h.status
  success := resizes_success

theorem spender_pays : Resizes spender (paymentAccess emptyingBlocks) emptyingMessage paymentText :=
  ⟨by decide +kernel, rfl, by decide +kernel⟩

theorem emptied_paid : Resizes emptied refundAccess refundMessage refundText :=
  ⟨by decide +kernel, rfl, by decide +kernel⟩

theorem refunded_pays :
    Resizes refunded (paymentAccess emptyingBlocks) emptyingMessage paymentText :=
  ⟨by decide +kernel, rfl, by decide +kernel⟩

def emptyingPayment : Payment spender emptied := spender_pays.payment emptyingBlocks_access

def refund : Payment emptied refunded := emptied_paid.payment refundAccess_access

def emptyingPayment₁ : Payment refunded emptiedAgain := refunded_pays.payment emptyingBlocks_access

/-- **The message is accepted again.** The first account pays all it has, is paid, and pays with the
same message; its slot was inside the chunk at first. -/
theorem message_replayed : ∃ (heap₁ heap₂ heap₃ heap₄ : Heap) (p : Payment heap₁ heap₂)
    (_ : Payment heap₂ heap₃) (q : Payment heap₃ heap₄),
    decisionNonceOf p.before.content = 1 ∧ p.slot + nonce16Size ≤ p.before.chunkSize ∧
      q.sender = p.sender ∧ p.message = some emptyingMessage ∧ q.message = some emptyingMessage :=
  ⟨spender, emptied, refunded, emptiedAgain, emptyingPayment, refund, emptyingPayment₁,
    by decide +kernel⟩

/-! ## What says who controls an account -/

/-- The places of an account of a kind that say who controls it: what is before the balance, the
owner of an account of an application, and the nonces in slots. -/
inductive ControlByte (decisionNonce : Nat) : Nat → Prop where
  | front {offset i : Nat} (hplace : balanceOffset decisionNonce = some offset) (hi : i < offset) :
    ControlByte decisionNonce i
  | owner {i : Nat} (hkind : decisionNonce = 0) (hlow : decisionNonceSize + argBalanceSize ≤ i)
      (hi : i < decisionNonceSize + argBalanceSize + 8) : ControlByte decisionNonce i
  | slot {i length : Nat} (hkind : decisionNonce = 1 ∨ decisionNonce = 2)
      (hlow : nonceSlot decisionNonce length ≤ i)
      (hi : i < nonceSlot decisionNonce length + nonce16Size) : ControlByte decisionNonce i

/-- They are no part of the balance. -/
theorem ControlByte.apart {decisionNonce offset i : Nat} (h : ControlByte decisionNonce i)
    (hplace : balanceOffset decisionNonce = some offset) :
    i < offset ∨ offset + argBalanceSize ≤ i := by
  cases h with
  | front hplace' hi =>
    obtain rfl := Option.some.inj (hplace'.symm.trans hplace)
    exact .inl hi
  | owner hkind hlow =>
    rw [hkind] at hplace
    obtain rfl := Option.some.inj hplace
    exact .inr hlow
  | @slot _ length hkind hlow hi =>
    obtain ⟨-, hpast⟩ | ⟨hother, -⟩ := nonceSlot_cases decisionNonce length
    · rw [balanceOffset_slots hkind hplace]
      exact .inr (Nat.le_trans hpast hlow)
    · exact absurd hkind (by omega)

/-- Behind the balance of a normal account there is nothing of them. -/
theorem ControlByte.lt_of_normal {decisionNonce offset i : Nat} (h : ControlByte decisionNonce i)
    (hnormal : minNonce ≤ decisionNonce) (hplace : balanceOffset decisionNonce = some offset) :
    i < offset := by
  unfold minNonce at hnormal
  cases h with
  | front hplace' hi =>
    obtain rfl := Option.some.inj (hplace'.symm.trans hplace)
    exact hi
  | owner hkind => omega
  | slot hkind => omega

namespace Payment
variable {heap heap' : Heap} (p : Payment heap heap')

/-- What says in the chunk of the sender who controls it, but for the nonce that is consumed if the
account is not one of an application. -/
def Controls (i : Nat) : Prop :=
  ControlByte (decisionNonceOf p.before.content) i ∧ i < p.before.chunkSize ∧
    (decisionNonceOf p.before.content ≠ 0 → i < p.slot ∨ p.slot + nonce16Size ≤ i)

/-- The whole balance is paid, and there is something behind it that says who controls the
account. -/
def CutsOff : Prop :=
  p.amount = p.before.balance ∧ ∃ offset i,
    balanceOffset (decisionNonceOf p.before.content) = some offset ∧ offset ≤ i ∧ p.Controls i

/-- The sender and the recipient keep the bytes that say who controls them. -/
structure ControlKept : Prop where
  sender : ∀ i, p.Controls i → i < p.after.chunkSize ∧
    p.after.content[i]? = p.before.content[i]?
  recipient : ∀ i, i < (heap (accountChunk p.recipient)).chunkSize →
    ControlByte (decisionNonceOf (heap (accountChunk p.recipient)).content) i →
      i < (heap' (accountChunk p.recipient)).chunkSize ∧
      (heap' (accountChunk p.recipient)).content[i]? =
        (heap (accountChunk p.recipient)).content[i]?

/-- A normal account loses nothing. -/
theorem not_cutsOff_of_normal (hnormal : minNonce ≤ decisionNonceOf p.before.content) :
    ¬ p.CutsOff := by
  rintro ⟨-, offset, i, hplace, hle, hcontrols⟩
  have hlt := hcontrols.1.lt_of_normal hnormal hplace
  omega

/-- The recipient keeps all but its balance. -/
theorem recipient_kept {i : Nat} (hi : i < (heap (accountChunk p.recipient)).chunkSize)
    (hcontrol : ControlByte (decisionNonceOf (heap (accountChunk p.recipient)).content) i) :
    i < (heap' (accountChunk p.recipient)).chunkSize ∧
      (heap' (accountChunk p.recipient)).content[i]? =
        (heap (accountChunk p.recipient)).content[i]? := by
  obtain ⟨offset, hcredited⟩ := p.transferred.credited
  have hlt : i < (heap' (accountChunk p.recipient)).chunkSize := by
    rw [hcredited.chunkSize]
    exact Nat.lt_of_lt_of_le hi (Nat.le_max_left _ _)
  refine ⟨hlt, ?_⟩
  rw [hcredited.content i hlt]
  refine writeAt_frame ?_
  rw [leBytes_length]
  exact hcontrol.apart hcredited.place

end Payment

/-- **Who controls an account.** A payment keeps the bytes that say so exactly if it does not cut
them off behind the balance. -/
theorem control_kept_iff {heap heap' : Heap} (p : Payment heap heap') :
    p.ControlKept ↔ ¬ p.CutsOff := by
  obtain ⟨offset, hplace, hpresent⟩ := p.exists_place
  have hsize := p.chunkSize_after hplace
  constructor
  · rintro hkept ⟨hall, offset', i, hplace', hle, hcontrols⟩
    obtain rfl := Option.some.inj (hplace'.symm.trans hplace)
    rw [if_pos hall] at hsize
    have hlt := (hkept.sender i hcontrols).1
    omega
  · intro hspared
    refine ⟨fun i hcontrols => ?_, fun i => p.recipient_kept⟩
    have hlt : i < p.after.chunkSize := by
      split at hsize
      · rename_i hall
        rw [hsize]
        exact Nat.lt_of_not_le fun hle => hspared ⟨hall, offset, i, hplace, hle, hcontrols⟩
      · rw [hsize]
        exact hcontrols.2.1
    exact ⟨hlt, p.content_after hplace hlt (hcontrols.1.apart hplace) hcontrols.2.2⟩

/-- The nonces in the other slots are lost. -/
theorem control_lost : ∃ (heap heap' : Heap) (p : Payment heap heap'), ¬ p.ControlKept := by
  refine ⟨spender, emptied, emptyingPayment, fun hkept => ?_⟩
  have hkind : decisionNonceOf emptyingPayment.before.content = 1 := by decide +kernel
  have hsizes : emptyingPayment.before.chunkSize = 85 ∧ emptyingPayment.slot = 83 ∧
      emptyingPayment.after.chunkSize = 67 := by decide +kernel
  have hcontrols : emptyingPayment.Controls 75 := by
    refine ⟨?_, by omega, fun _ => by omega⟩
    rw [hkind]
    exact @ControlByte.slot 1 75 0 (.inl rfl) (by decide) (by decide)
  have hlt := (hkept.sender 75 hcontrols).1
  omega

end Argennon
