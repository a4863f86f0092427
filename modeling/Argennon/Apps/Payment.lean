import Argennon.Apps.Ledger

/- The payments of the ARG application, and the messages that are signed for them.

   A payment consumes the nonce in the slot of its message, so a signed message is not accepted
   again while the slot keeps what was consumed. The slot of a normal account is its decision nonce,
   which nothing takes away. The slots of the other kinds are past the balance: a payment of the
   whole balance cuts them off. -/
namespace Argennon

/-- A transfer that was executed. -/
structure Payment (heap heap' : Heap) where
  req : AppRequest
  text : ArgApp.RequestText
  status : Int
  request : ArgRequest heap req
  method : text.method.value = "PATCH"
  run : executeCode heap req (ArgApp.dispatcher heap text) = .ok (status, heap')
  success : status < 400

namespace Payment
variable {heap heap' : Heap} (p : Payment heap heap')

def sender : LongID := p.text.account.value

def recipient : LongID := p.text.recipient.value

def amount : Int := p.text.amount.value.toInt

/-- What the sender pays, as it is signed. -/
def body : String := transferText p.recipient p.text.amount.value

/-- The message of the request that the text points to. -/
def message : Option SignedMessage :=
  p.req.signatureManager.messages[p.text.sigIndex.value.toInt16.toInt.toNat]?

/-- The chunk of the sender, before and after. -/
def before : Chunk := heap (accountChunk p.sender)

def after : Chunk := heap' (accountChunk p.sender)

/-- The slot of the nonce. -/
def slot : Nat := nonceSlot (decisionNonceOf p.before.content) p.body.utf8ByteSize

theorem transferred : Transferred heap heap' p.req.signatureManager.messages p.sender p.recipient
    p.text.amount.value
    p.text.sigIndex.value.toInt16 := by
  obtain ⟨hge, -⟩ | ⟨-, hstep⟩ := p.request.step p.run
  · exact absurd p.success (Int.not_lt.mpr hge)
  · generalize p.status = status at hstep
    cases hstep with
    | transfer _ h => exact h
    | create hmethod => exact absurd (p.method.symm.trans hmethod) (by decide)
    | taken hmethod => exact absurd (p.method.symm.trans hmethod) (by decide)
    | other hmethod => exact absurd p.method hmethod.1

/-- Where the balance is, which is inside the chunk. -/
theorem exists_place : ∃ offset, balanceOffset (decisionNonceOf p.before.content) = some offset ∧
    offset + argBalanceSize ≤ p.before.chunkSize := by
  obtain ⟨offset, _, hdebited⟩ := p.transferred.debited
  exact ⟨offset, hdebited.place, hdebited.present⟩

/-- The chunk ends where the balance was, if all of it was paid. -/
theorem chunkSize_after {offset : Nat}
    (hplace : balanceOffset (decisionNonceOf p.before.content) = some offset) :
    p.after.chunkSize = if p.amount = p.before.balance then offset else p.before.chunkSize := by
  obtain ⟨offset', mem, hdebited⟩ := p.transferred.debited
  obtain rfl : offset' = offset := Option.some.inj (hdebited.place.symm.trans hplace)
  have hsame : balanceAt mem offset' = p.before.balance := by
    rw [Chunk.balance_eq hplace]
    unfold balanceAt
    exact congrArg (fun bytes => signed64 (leNat bytes)) (hdebited.nonce.step.balance hplace)
  rw [← hsame, if_congr (eq_comm (a := p.amount)) rfl rfl]
  exact hdebited.chunkSize

/-- Every byte that stays is kept, but for the balance and the nonce. An account of an application
has no nonce. -/
theorem content_after {offset i : Nat}
    (hplace : balanceOffset (decisionNonceOf p.before.content) = some offset)
    (hi : i < p.after.chunkSize) (hbalance : i < offset ∨ offset + argBalanceSize ≤ i)
    (hslot : decisionNonceOf p.before.content ≠ 0 → i < p.slot ∨ p.slot + nonce16Size ≤ i) :
    p.after.content[i]? = p.before.content[i]? := by
  obtain ⟨offset', mem, hdebited⟩ := p.transferred.debited
  obtain rfl : offset' = offset := Option.some.inj (hdebited.place.symm.trans hplace)
  rw [show p.after.content[i]? = _ from hdebited.content i hi,
    writeAt_frame (by rwa [leBytes_length])]
  have hnonce := hdebited.nonce
  cases hnonce with
  | kept => rfl
  | consumed hmsg hkey slot hplaced =>
    have hplaced : slot = p.slot := hplaced
    have hkind : decisionNonceOf p.before.content ≠ 0 := by
      intro hzero
      unfold before at hzero
      rw [hzero] at hkey
      exact absurd hkey (by decide)
    exact writeAt_frame (by rw [leBytes_length, hplaced]; exact hslot hkind)

/-- A message is never empty. -/
theorem body_ne_empty : p.body.utf8ByteSize ≠ 0 := by
  unfold body transferText
  simp only [String.utf8ByteSize_append]
  have hhead : ("\x7b\"to\":" : String).utf8ByteSize ≠ 0 := by decide
  omega

end Payment

theorem Payment.ledgerStep {heap heap' : Heap} (p : Payment heap heap') : LedgerStep heap heap' :=
  .request p.req p.text p.status p.request p.run

/-! ## Slots -/

/-- The nonce in the slot of the messages of a length. -/
def slotNonce (chunk : Chunk) (length : Nat) : Nat :=
  nonceAt chunk.content (nonceSlot (decisionNonceOf chunk.content) length)

/-- An account with nonces whose slot for the messages of a length is inside the chunk. -/
structure HasSlot (chunk : Chunk) (length : Nat) : Prop where
  exist : nonce16Size ≤ chunk.chunkSize
  kind : balanceOffset (decisionNonceOf chunk.content) = some ArgC.keyBalanceIndex
  inside : nonceSlot (decisionNonceOf chunk.content) length + nonce16Size ≤ chunk.chunkSize

/-- The slot is not past the size, or it is the decision nonce. -/
theorem slot_apart_balance (decisionNonce length : Nat) :
    nonceSlot decisionNonce length + nonce16Size ≤ ArgC.keyBalanceIndex ∨
      ArgC.keyBalanceIndex + argBalanceSize ≤ nonceSlot decisionNonce length := by
  obtain ⟨-, hpast⟩ | ⟨-, hzero⟩ := nonceSlot_cases decisionNonce length
  · exact .inr hpast
  · left
    rw [hzero]
    decide

section
variable {chunk chunk' : Chunk} {mem mem' : List Byte} {length : Nat}

/-- What a slot becomes when a message has been verified and the balance is changed. -/
theorem HasSlot.of_step (h : HasSlot chunk length) (hstep : NonceStep chunk.content mem)
    (hdecision : decisionNonceOf mem' = decisionNonceOf mem)
    (hslot : nonceAt mem' (nonceSlot (decisionNonceOf mem) length) =
      nonceAt mem (nonceSlot (decisionNonceOf mem) length))
    (hinside : nonceSlot (decisionNonceOf chunk.content) length + nonce16Size ≤ chunk'.chunkSize)
    (hbytes : ∀ i, i < chunk'.chunkSize → chunk'.content[i]? = mem'[i]?) :
    HasSlot chunk' length ∧ nonceSlot (decisionNonceOf chunk'.content) length =
      nonceSlot (decisionNonceOf chunk.content) length ∧
      slotNonce chunk' length = nonceAt mem (nonceSlot (decisionNonceOf chunk.content) length) := by
  have hstart : 0 + nonce16Size ≤ chunk'.chunkSize :=
    Nat.le_trans (Nat.add_le_add_right (Nat.zero_le _) _) hinside
  have hsame : decisionNonceOf chunk'.content = decisionNonceOf mem := by
    rw [← hdecision]
    exact congrArg leNat (readAt_persisted hbytes hstart)
  have hplace : nonceSlot (decisionNonceOf chunk'.content) length =
      nonceSlot (decisionNonceOf chunk.content) length := by
    rw [hsame, hstep.slot_eq]
  refine ⟨⟨by omega, by rw [hsame, hstep.balanceOffset_eq, h.kind], by rw [hplace]; exact hinside⟩,
    hplace, ?_⟩
  rw [hstep.slot_eq] at hslot
  rw [← hslot, slotNonce, hplace]
  exact congrArg leNat (readAt_persisted hbytes hinside)

/-- The slots of the sender. -/
theorem Debited.slot {messages : List SignedMessage} {sender : LongID} {msg : String}
    {sigIndex amount : Int} {offset : Nat}
    (h : Debited messages sender msg sigIndex amount offset mem chunk chunk')
    (hslot : HasSlot chunk length)
    (hinside : nonceSlot (decisionNonceOf chunk.content) length + nonce16Size ≤ chunk'.chunkSize) :
    HasSlot chunk' length ∧ nonceSlot (decisionNonceOf chunk'.content) length =
      nonceSlot (decisionNonceOf chunk.content) length ∧
      slotNonce chunk' length = nonceAt mem (nonceSlot (decisionNonceOf chunk.content) length) := by
  obtain rfl := Option.some.inj (h.place.symm.trans hslot.kind)
  refine hslot.of_step h.nonce.step (decisionNonceOf_writeAt (by decide)) ?_ hinside h.content
  refine congrArg leNat (readAt_writeAt_apart ?_)
  rw [leBytes_length]
  exact slot_apart_balance _ _

/-- The slots of the recipient. -/
theorem Credited.slot {amount : Int} {offset : Nat} (h : Credited amount offset chunk chunk')
    (hslot : HasSlot chunk length)
    (hinside : nonceSlot (decisionNonceOf chunk.content) length + nonce16Size ≤ chunk'.chunkSize) :
    HasSlot chunk' length ∧ nonceSlot (decisionNonceOf chunk'.content) length =
      nonceSlot (decisionNonceOf chunk.content) length ∧
      slotNonce chunk' length = slotNonce chunk length := by
  obtain rfl := Option.some.inj (h.place.symm.trans hslot.kind)
  refine hslot.of_step .kept (decisionNonceOf_writeAt (by decide)) ?_ hinside h.content
  refine congrArg leNat (readAt_writeAt_apart ?_)
  rw [leBytes_length]
  exact slot_apart_balance _ _

theorem Visited.slot (h : Visited chunk chunk') (hslot : HasSlot chunk length)
    (hinside : nonceSlot (decisionNonceOf chunk.content) length + nonce16Size ≤ chunk'.chunkSize) :
    HasSlot chunk' length ∧ nonceSlot (decisionNonceOf chunk'.content) length =
      nonceSlot (decisionNonceOf chunk.content) length ∧
      slotNonce chunk length ≤ slotNonce chunk' length := by
  obtain ⟨mem, hmem, hbytes⟩ := h.content
  have hstep : NonceStep chunk.content mem := by
    obtain rfl | ⟨-, hstep⟩ := hmem
    · exact .kept
    · exact hstep
  obtain ⟨hslot', hplace, hnonce⟩ := hslot.of_step hstep rfl rfl hinside (by rwa [h.chunkSize])
  refine ⟨hslot', hplace, ?_⟩
  rw [hnonce]
  exact hstep.nonce_le length

end

section
variable {heap heap' : Heap} {account : LongID} {length : Nat}

/-- A step does not lower a nonce, unless it cuts the slot off. -/
theorem LedgerStep.slot (h : LedgerStep heap heap')
    (hslot : HasSlot (heap (accountChunk account)) length)
    (hinside : nonceSlot (decisionNonceOf (heap (accountChunk account)).content) length +
      nonce16Size ≤ (heap' (accountChunk account)).chunkSize) :
    HasSlot (heap' (accountChunk account)) length ∧
      nonceSlot (decisionNonceOf (heap' (accountChunk account)).content) length =
        nonceSlot (decisionNonceOf (heap (accountChunk account)).content) length ∧
      slotNonce (heap (accountChunk account)) length ≤
        slotNonce (heap' (accountChunk account)) length := by
  have hkept (hsame : heap' (accountChunk account) = heap (accountChunk account)) :
      HasSlot (heap' (accountChunk account)) length ∧
        nonceSlot (decisionNonceOf (heap' (accountChunk account)).content) length =
          nonceSlot (decisionNonceOf (heap (accountChunk account)).content) length ∧
        slotNonce (heap (accountChunk account)) length ≤
          slotNonce (heap' (accountChunk account)) length := by
    rw [hsame]
    exact ⟨hslot, rfl, Nat.le_refl _⟩
  cases h with
  | elsewhere hvisited => exact (hvisited account).slot hslot hinside
  | request req text status hreq hrun =>
    obtain ⟨-, hsame⟩ | ⟨-, hstep⟩ := hreq.step hrun
    · exact hkept (by rw [hsame])
    cases hstep with
    | transfer _ ht =>
      by_cases hs : account = text.account.value
      · obtain ⟨_, mem, hdebited⟩ := ht.debited
        rw [hs] at hslot hinside ⊢
        obtain ⟨hslot', hplace, hnonce⟩ := hdebited.slot hslot hinside
        exact ⟨hslot', hplace, hnonce ▸ hdebited.nonce.step.nonce_le length⟩
      by_cases hr : account = text.recipient.value
      · obtain ⟨_, hcredited⟩ := ht.credited
        rw [hr] at hslot hinside ⊢
        obtain ⟨hslot', hplace, hnonce⟩ := hcredited.slot hslot hinside
        exact ⟨hslot', hplace, Nat.le_of_eq hnonce.symm⟩
      · exact hkept (ht.others _ (fun heq => hs (accountChunk_injective heq)) fun heq =>
          hr (accountChunk_injective heq))
    | create _ hcreated hothers =>
      by_cases ha : account = text.account.value
      · -- an account with a slot is not created again
        rw [ha] at hslot
        exact absurd hslot.exist (Nat.not_le.mpr hcreated.absent)
      · exact hkept (hothers _ fun heq => ha (accountChunk_injective heq))
    | taken _ _ hsame => exact hkept (by rw [hsame])
    | other _ hsame => exact hkept (by rw [hsame])

/-- An account that exists is not deleted. -/
theorem LedgerStep.exist (h : LedgerStep heap heap')
    (hexist : nonce16Size ≤ (heap (accountChunk account)).chunkSize) :
    nonce16Size ≤ (heap' (accountChunk account)).chunkSize := by
  cases h with
  | elsewhere hvisited => exact (hvisited account).chunkSize ▸ hexist
  | request req text status hreq hrun =>
    obtain ⟨-, hsame⟩ | ⟨-, hstep⟩ := hreq.step hrun
    · rwa [hsame]
    cases hstep with
    | transfer _ ht =>
      by_cases hs : account = text.account.value
      · obtain ⟨offset, mem, hdebited⟩ := ht.debited
        rw [hs, hdebited.chunkSize]
        have hlow : nonce16Size ≤ offset := (ArgApp.balanceOffset_lt hdebited.place).1
        split
        · exact hlow
        · exact Nat.le_trans (Nat.le_add_right_of_le hlow) hdebited.present
      by_cases hr : account = text.recipient.value
      · obtain ⟨_, hcredited⟩ := ht.credited
        rw [hr, hcredited.chunkSize]
        exact Nat.le_trans hcredited.exist (Nat.le_max_left _ _)
      · rwa [ht.others _ (fun heq => hs (accountChunk_injective heq)) fun heq =>
          hr (accountChunk_injective heq)]
    | create _ hcreated hothers =>
      by_cases ha : account = text.account.value
      · rw [ha] at hexist
        exact absurd hexist (Nat.not_le.mpr hcreated.absent)
      · rwa [hothers _ fun heq => ha (accountChunk_injective heq)]
    | taken _ _ hsame => rwa [hsame]
    | other _ hsame => rwa [hsame]

/-- A step after which the slot is still inside the chunk of the account. -/
def SlotKept (account : LongID) (slot : Nat) (heap heap' : Heap) : Prop :=
  LedgerStep heap heap' ∧ slot + nonce16Size ≤ (heap' (accountChunk account)).chunkSize

/-- A run does not lower a nonce whose slot is kept. -/
theorem slot_run {slot : Nat} (hrun : Relation.ReflTransGen (SlotKept account slot) heap heap')
    (hslot : HasSlot (heap (accountChunk account)) length)
    (hplace : nonceSlot (decisionNonceOf (heap (accountChunk account)).content) length = slot) :
    HasSlot (heap' (accountChunk account)) length ∧
      nonceSlot (decisionNonceOf (heap' (accountChunk account)).content) length = slot ∧
      slotNonce (heap (accountChunk account)) length ≤
        slotNonce (heap' (accountChunk account)) length := by
  induction hrun with
  | refl => exact ⟨hslot, hplace, Nat.le_refl _⟩
  | tail _ hstep ih =>
    obtain ⟨hmid, hmidPlace, hle⟩ := ih
    obtain ⟨hslot', hplace', hle'⟩ := hstep.1.slot hmid (by rw [hmidPlace]; exact hstep.2)
    exact ⟨hslot', hplace'.trans hmidPlace, Nat.le_trans hle hle'⟩

/-- Every run keeps the decision nonce. -/
theorem decision_kept (hrun : Relation.ReflTransGen LedgerStep heap heap')
    (hexist : nonce16Size ≤ (heap (accountChunk account)).chunkSize) :
    Relation.ReflTransGen (SlotKept account 0) heap heap' ∧
      nonce16Size ≤ (heap' (accountChunk account)).chunkSize := by
  induction hrun with
  | refl => exact ⟨.refl, hexist⟩
  | tail _ hstep ih =>
    have hexist' := hstep.exist ih.2
    exact ⟨ih.1.tail ⟨hstep, by rwa [Nat.zero_add]⟩, hexist'⟩

end

/-! ## Messages -/

namespace Payment
variable {heap heap' : Heap} (p : Payment heap heap')

/-- What a payment has accepted, and what it leaves in the slot. -/
theorem consumed (hkind : balanceOffset (decisionNonceOf p.before.content) =
    some ArgC.keyBalanceIndex) :
    (∃ text, ArgC.appendNonceToMsg p.body argAppID (slotNonce p.before p.body.utf8ByteSize) =
        .ok text ∧
      p.message = some ⟨p.sender, text⟩) ∧
      (p.slot + nonce16Size ≤ p.after.chunkSize → HasSlot p.after p.body.utf8ByteSize ∧
        nonceSlot (decisionNonceOf p.after.content) p.body.utf8ByteSize = p.slot ∧
        slotNonce p.after p.body.utf8ByteSize = slotNonce p.before p.body.utf8ByteSize + 1) := by
  obtain ⟨offset, mem, hdebited⟩ := p.transferred.debited
  have hnonce := hdebited.nonce
  cases hnonce with
  | kept h =>
    obtain hempty | hzero := h
    · exact absurd hempty p.body_ne_empty
    · -- the balance of an account of an application is elsewhere
      unfold before at hkind
      rw [hzero] at hkind
      exact absurd hkind (by decide)
  | consumed hmsg _ slot hslot hfit hlt text htext hsigned =>
    refine ⟨⟨text, ?_, hsigned.2⟩, fun hinside => ?_⟩
    · rw [hslot] at htext
      exact htext
    · -- a debit does not make the chunk larger
      have hpresent : p.after.chunkSize ≤ p.before.chunkSize := by
        have hsize := hdebited.chunkSize
        split at hsize
        · exact Nat.le_trans (Nat.le_of_eq hsize)
            (Nat.le_trans (Nat.le_add_right _ _) hdebited.present)
        · exact Nat.le_of_eq hsize
      have hbefore : HasSlot p.before p.body.utf8ByteSize := by
        refine ⟨?_, hkind, Nat.le_trans hinside hpresent⟩
        exact Nat.le_trans (ArgApp.balanceOffset_lt hdebited.place).1
          (Nat.le_trans (Nat.le_add_right _ _) hdebited.present)
      obtain ⟨hafter, hplace, hvalue⟩ := hdebited.slot hbefore hinside
      refine ⟨hafter, hplace, hvalue.trans ?_⟩
      have hplace' : nonceSlot (decisionNonceOf p.before.content) p.body.utf8ByteSize =
          slot := hslot.symm
      unfold slotNonce
      rw [hplace']
      exact (congrArg (nonceAt _) hplace').trans (NonceStep.consumed_nonce hfit hlt)

end Payment

/-- Messages with different nonces. -/
theorem Payment.message_ne {heap₁ heap₂ heap₃ heap₄ : Heap} (p : Payment heap₁ heap₂)
    (q : Payment heap₃ heap₄)
    (hp : balanceOffset (decisionNonceOf p.before.content) = some ArgC.keyBalanceIndex)
    (hq : balanceOffset (decisionNonceOf q.before.content) = some ArgC.keyBalanceIndex)
    (hlt : slotNonce p.before p.body.utf8ByteSize < slotNonce q.before p.body.utf8ByteSize) :
    p.message ≠ q.message := by
  intro hsame
  obtain ⟨⟨text, htext, hmessage⟩, -⟩ := p.consumed hp
  obtain ⟨⟨text', htext', hmessage'⟩, -⟩ := q.consumed hq
  have heq : text' = text :=
    congrArg SignedMessage.message
      (Option.some.inj (hmessage'.symm.trans (hsame.symm.trans hmessage)))
  rw [heq] at htext'
  have hlist := (ArgC.appendNonceToMsg_ok htext).symm.trans (ArgC.appendNonceToMsg_ok htext')
  obtain ⟨hbody, -, hnonce⟩ :=
    ArgC.nonceSuffix_injective ArgC.id_injective (by simpa only [List.map_id'] using hlist)
  rw [← String.toList_inj.mp hbody] at hnonce
  omega

/-- The nonce of a payment is past while its slot is kept. -/
theorem Payment.nonce_lt {heap₁ heap₂ heap₃ : Heap} (p : Payment heap₁ heap₂)
    (hkind : balanceOffset (decisionNonceOf p.before.content) = some ArgC.keyBalanceIndex)
    (hinside : p.slot + nonce16Size ≤ p.after.chunkSize)
    (hrun : Relation.ReflTransGen (SlotKept p.sender p.slot) heap₂ heap₃) :
    balanceOffset (decisionNonceOf (heap₃ (accountChunk p.sender)).content) =
      some ArgC.keyBalanceIndex ∧
      slotNonce p.before p.body.utf8ByteSize <
        slotNonce (heap₃ (accountChunk p.sender)) p.body.utf8ByteSize := by
  obtain ⟨hslot, hplace, hnext⟩ := (p.consumed hkind).2 hinside
  obtain ⟨hslot', -, hle⟩ := slot_run hrun hslot hplace
  refine ⟨hslot'.kind, ?_⟩
  calc slotNonce p.before p.body.utf8ByteSize <
      slotNonce p.after p.body.utf8ByteSize := by rw [hnext]; exact Nat.lt_succ_self _
    _ ≤ slotNonce (heap₃ (accountChunk p.sender)) p.body.utf8ByteSize := hle

/-- **A signed message of a normal account is accepted once.** Whatever is executed between two
payments, they have not accepted the same message. -/
theorem payment_signed_once {heap₁ heap₂ heap₃ heap₄ : Heap} (p : Payment heap₁ heap₂)
    (q : Payment heap₃ heap₄)
    (hsender : q.sender = p.sender) (hnormal : minNonce ≤ decisionNonceOf p.before.content)
    (hrun : Relation.ReflTransGen LedgerStep heap₂ heap₃) : p.message ≠ q.message := by
  have hkind := balanceOffset_min hnormal
  have hslot : p.slot = 0 := nonceSlot_normal hnormal _
  have hexist : nonce16Size ≤ p.after.chunkSize := by
    obtain ⟨_, hplace, hpresent⟩ := p.exists_place
    have hbefore : nonce16Size ≤ p.before.chunkSize :=
      Nat.le_trans (ArgApp.balanceOffset_lt hplace).1
        (Nat.le_trans (Nat.le_add_right _ _) hpresent)
    exact p.ledgerStep.exist hbefore
  obtain ⟨hkept, -⟩ := decision_kept hrun hexist
  rw [← hslot] at hkept
  obtain ⟨hkind', hlt⟩ := p.nonce_lt hkind (by rwa [hslot, Nat.zero_add]) hkept
  rw [← hsender] at hkind' hlt
  exact p.message_ne q hkind hkind' hlt

/-- A request that pays is a payment. -/
def paidPayment {heap : Heap} {blocks : BlockMap} {nonce : String} (h : Pays heap blocks nonce)
    (hwf : WellFormedAccess (paymentAccess blocks)) : Payment heap (paid heap blocks nonce) where
  req := paymentRequest heap blocks nonce
  text := paymentText
  status := 200
  request := h.request hwf
  method := rfl
  run := h.run
  success := by decide

theorem paidPayment_sender {heap : Heap} {blocks : BlockMap} {nonce : String}
    (h : Pays heap blocks nonce)
    (hwf : WellFormedAccess (paymentAccess blocks)) :
    (paidPayment h hwf).sender = paymentText.account.value := by
  unfold Payment.sender paidPayment
  rfl

/-- The normal account pays again, and again. -/
def normalAccounts₂ : Heap := paid normalAccounts₁ normalBlocks "9"

def normalAccounts₃ : Heap := paid normalAccounts₂ normalBlocks "10"

theorem normalAccounts₁_pays : Pays normalAccounts₁ normalBlocks "9" := by decide +kernel

theorem normalAccounts₂_pays : Pays normalAccounts₂ normalBlocks "10" := by decide +kernel

theorem normalAccounts_kind :
    minNonce ≤ decisionNonceOf
      (normalAccounts (accountChunk paymentText.account.value)).content := by
  decide +kernel

def normalPayment : Payment normalAccounts normalAccounts₁ :=
  paidPayment normalAccounts_pays normalBlocks_access

def normalPayment₁ : Payment normalAccounts₁ normalAccounts₂ :=
  paidPayment normalAccounts₁_pays normalBlocks_access

def normalPayment₂ : Payment normalAccounts₂ normalAccounts₃ :=
  paidPayment normalAccounts₂_pays normalBlocks_access

/-- Another payment is made between the two. -/
theorem payment_signed_once_twice : normalPayment.message ≠ normalPayment₂.message :=
  payment_signed_once normalPayment normalPayment₂
    ((paidPayment_sender _ _).trans (paidPayment_sender _ _).symm)
    normalAccounts_kind (.single normalPayment₁.ledgerStep)

/-- **A signed message of any account with nonces is accepted once, as long as its slot is kept.** A
payment of the whole balance cuts off the slots of the accounts that are not normal. -/
theorem payment_signed_once_kept {heap₁ heap₂ heap₃ heap₄ : Heap} (p : Payment heap₁ heap₂)
    (q : Payment heap₃ heap₄)
    (hsender : q.sender = p.sender)
    (hkind : balanceOffset (decisionNonceOf p.before.content) = some ArgC.keyBalanceIndex)
    (hinside : p.slot + nonce16Size ≤ p.after.chunkSize)
    (hrun : Relation.ReflTransGen (SlotKept p.sender p.slot) heap₂ heap₃) :
    p.message ≠ q.message := by
  obtain ⟨hkind', hlt⟩ := p.nonce_lt hkind hinside hrun
  rw [← hsender] at hkind' hlt
  exact p.message_ne q hkind hkind' hlt

/-- The blocks of an account with five slots, of which a payment of 2 uses the last one. -/
def slotBlocks : BlockMap :=
  ⟨[-2, 0, 67, 83], [⟨85, .read_only, 0⟩, ⟨2, .read_only, 0⟩, ⟨8, .writable, 0⟩,
    ⟨2, .writable, 0⟩], rfl⟩

theorem slotBlocks_access : WellFormedAccess (paymentAccess slotBlocks) := ⟨by decide, by decide⟩

/-- An account with five slots pays three times. -/
def slotAccounts : Heap := twoAccounts 1 (List.replicate 10 0)

def slotAccounts₁ : Heap := paid slotAccounts slotBlocks "0"

def slotAccounts₂ : Heap := paid slotAccounts₁ slotBlocks "1"

def slotAccounts₃ : Heap := paid slotAccounts₂ slotBlocks "2"

theorem slotAccounts_pays : Pays slotAccounts slotBlocks "0" := by decide +kernel

theorem slotAccounts₁_pays : Pays slotAccounts₁ slotBlocks "1" := by decide +kernel

theorem slotAccounts₂_pays : Pays slotAccounts₂ slotBlocks "2" := by decide +kernel

def slotPayment : Payment slotAccounts slotAccounts₁ :=
  paidPayment slotAccounts_pays slotBlocks_access

def slotPayment₁ : Payment slotAccounts₁ slotAccounts₂ :=
  paidPayment slotAccounts₁_pays slotBlocks_access

def slotPayment₂ : Payment slotAccounts₂ slotAccounts₃ :=
  paidPayment slotAccounts₂_pays slotBlocks_access

theorem slotPayment_kept : balanceOffset (decisionNonceOf slotPayment.before.content) =
    some ArgC.keyBalanceIndex ∧
    slotPayment.slot + nonce16Size ≤ slotPayment.after.chunkSize ∧
      slotPayment.before.capacity ≤ slotPayment.before.chunkSize := by
  decide +kernel

theorem slotPayment₁_kept :
    slotPayment.slot + nonce16Size ≤
      (slotAccounts₂ (accountChunk slotPayment.sender)).chunkSize := by
  decide +kernel

theorem payment_signed_once_kept_twice : slotPayment.message ≠ slotPayment₂.message :=
  payment_signed_once_kept slotPayment slotPayment₂
    ((paidPayment_sender _ _).trans (paidPayment_sender _ _).symm)
    slotPayment_kept.1 slotPayment_kept.2.1 (.single ⟨slotPayment₁.ledgerStep, slotPayment₁_kept⟩)

/-- **What a payment does to the rest of the sender's chunk.** Every byte that stays is kept, but
for the balance and the nonce; and a payment of the whole balance cuts off all that is behind it, so
that the nonces in slots begin again. -/
theorem payment_storage {heap heap' : Heap} (p : Payment heap heap') (hzero : p.before.ZeroTail) :
    ∃ offset, balanceOffset (decisionNonceOf p.before.content) = some offset ∧
      p.after.chunkSize = (if p.amount = p.before.balance then offset else p.before.chunkSize) ∧
      (∀ i, i < p.after.chunkSize → (i < offset ∨ offset + argBalanceSize ≤ i) →
          (i < p.slot ∨ p.slot + nonce16Size ≤ i) →
        p.after.content[i]? = p.before.content[i]?) ∧
      (p.amount = p.before.balance → (∀ i, offset ≤ i → p.after.content.getD i 0 = 0) ∧
        ∀ length, decisionNonceOf p.before.content = 1 ∨ decisionNonceOf p.before.content = 2 →
          slotNonce p.after length = 0) := by
  obtain ⟨offset, mem, hdebited⟩ := p.transferred.debited
  have hplace : balanceOffset (decisionNonceOf p.before.content) = some offset := hdebited.place
  have hsize := p.chunkSize_after hplace
  refine ⟨offset, hplace, hsize, fun i hi hbalance hslot =>
    p.content_after hplace hi hbalance fun _ => hslot, fun hall => ?_⟩
  rw [if_pos hall] at hsize
  have hzero' : p.after.ZeroTail := hdebited.zeroTail hzero
  refine ⟨fun i hi => hzero'.getD_eq (by rwa [hsize]), fun length hkind => ?_⟩
  -- the slots are where they were, past the balance
  have hdecision : decisionNonceOf p.after.content = decisionNonceOf p.before.content := by
    obtain hkept | ⟨hmin, -⟩ := hdebited.nonce.step.decision
    · exact hdebited.decision.trans hkept
    · have hnormal : minNonce ≤ decisionNonceOf p.before.content := hmin
      unfold minNonce at hnormal
      omega
  unfold slotNonce
  rw [hdecision]
  refine hzero'.readAt_past ?_
  have hkey : offset = ArgC.keyBalanceIndex := balanceOffset_slots hkind hplace
  obtain ⟨-, hpast⟩ | ⟨hother, -⟩ := nonceSlot_cases (decisionNonceOf p.before.content) length
  · rw [hsize, hkey]
    exact Nat.le_trans (Nat.le_add_right _ _) hpast
  · exact absurd hkind (by omega)

/-- A payment that leaves something. -/
theorem payment_storage_rest :
    ∃ offset, balanceOffset (decisionNonceOf slotPayment.before.content) = some offset ∧
    slotPayment.after.chunkSize =
      (if slotPayment.amount = slotPayment.before.balance then offset
      else slotPayment.before.chunkSize) ∧
    (∀ i, i < slotPayment.after.chunkSize → (i < offset ∨ offset + argBalanceSize ≤ i) →
      (i < slotPayment.slot ∨ slotPayment.slot + nonce16Size ≤ i) →
      slotPayment.after.content[i]? = slotPayment.before.content[i]?) ∧
    (slotPayment.amount = slotPayment.before.balance →
        (∀ i, offset ≤ i → slotPayment.after.content.getD i 0 = 0) ∧
      ∀ length, decisionNonceOf slotPayment.before.content = 1 ∨
        decisionNonceOf slotPayment.before.content = 2 →
        slotNonce slotPayment.after length = 0) :=
  payment_storage slotPayment (Chunk.zeroTail_of_full slotPayment_kept.2.2)

/-! ## Keys -/

/-- The chunk of a normal account with a key. -/
structure HoldsKey (key : List Byte) (chunk : Chunk) : Prop where
  kind : minNonce ≤ decisionNonceOf chunk.content
  size : ArgC.keyBalanceIndex ≤ chunk.chunkSize
  key : readAt chunk.content decisionNonceSize publicKeySize = key

section
variable {chunk chunk' : Chunk} {mem mem' key : List Byte} {heap heap' : Heap} {account : LongID}

/-- A verification and a change of the balance keep the key. -/
theorem HoldsKey.of_step (h : HoldsKey key chunk) (hstep : NonceStep chunk.content mem)
    (hsize : ArgC.keyBalanceIndex ≤ chunk'.chunkSize)
    (hmem : ∀ i, i < ArgC.keyBalanceIndex → mem'[i]? = mem[i]?)
    (hbytes : ∀ i, i < chunk'.chunkSize → chunk'.content[i]? = mem'[i]?) :
    HoldsKey key chunk' := by
  have hsame {offset n : Nat} (hle : offset + n ≤ ArgC.keyBalanceIndex) :
      readAt chunk'.content offset n = readAt mem offset n := by
    apply readAt_congr
    intro i _ hhigh
    rw [List.getD_eq_getElem?_getD, List.getD_eq_getElem?_getD, hbytes i (by omega),
      hmem i (by omega)]
  refine ⟨?_, hsize, ?_⟩
  · have hdecision : decisionNonceOf chunk'.content = decisionNonceOf mem :=
      congrArg leNat (hsame (by decide))
    rw [hdecision]
    obtain hkept | ⟨hmin, hnext⟩ := hstep.decision
    · rw [hkept]
      exact h.kind
    · rw [hnext]
      exact Nat.le_succ_of_le hmin
  · rw [hsame (by decide), ← h.key]
    obtain _ | ⟨-, length, slot, hslot, -, -⟩ := hstep
    · rfl
    -- the nonce is before the key
    obtain ⟨hother, -⟩ | ⟨-, hzero⟩ := nonceSlot_cases (decisionNonceOf chunk.content) length
    · have hkind := h.kind
      unfold minNonce at hkind
      omega
    · rw [hzero] at hslot
      rw [hslot]
      exact readAt_writeAt_apart (.inr (by rw [leBytes_length]; decide))

theorem HoldsKey.debited {messages : List SignedMessage} {sender : LongID} {msg : String}
    {sigIndex amount : Int} {offset : Nat}
    (hkey : HoldsKey key chunk)
    (h : Debited messages sender msg sigIndex amount offset mem chunk chunk') :
    HoldsKey key chunk' := by
  obtain rfl := Option.some.inj (h.place.symm.trans (balanceOffset_min hkey.kind))
  refine hkey.of_step h.nonce.step ?_ (fun i hi => writeAt_frame (.inl hi)) h.content
  rw [h.chunkSize]
  split
  · exact Nat.le_refl _
  · exact hkey.size

theorem HoldsKey.credited {amount : Int} {offset : Nat} (hkey : HoldsKey key chunk)
    (h : Credited amount offset chunk chunk') :
    HoldsKey key chunk' := by
  obtain rfl := Option.some.inj (h.place.symm.trans (balanceOffset_min hkey.kind))
  refine hkey.of_step .kept ?_ (fun i hi => writeAt_frame (.inl hi)) h.content
  rw [h.chunkSize]
  exact Nat.le_trans hkey.size (Nat.le_max_left _ _)

theorem HoldsKey.visited (hkey : HoldsKey key chunk) (h : Visited chunk chunk') :
    HoldsKey key chunk' := by
  obtain ⟨mem, hmem, hbytes⟩ := h.content
  have hstep : NonceStep chunk.content mem := by
    obtain rfl | ⟨-, hstep⟩ := hmem
    · exact .kept
    · exact hstep
  exact hkey.of_step hstep (by rw [h.chunkSize]; exact hkey.size) (fun _ _ => rfl)
    (by rwa [h.chunkSize])

/-- A new account holds its key. -/
theorem Created.holdsKey {pk : ArgApp.PublicKey} (h : Created pk chunk chunk') :
    HoldsKey pk.val chunk' := by
  refine ⟨Nat.le_of_eq h.decision.symm, Nat.le_of_eq h.chunkSize.symm, ?_⟩
  have hinside : decisionNonceSize + publicKeySize ≤ chunk'.chunkSize :=
    Nat.le_of_eq h.chunkSize.symm
  have hread : readAt (writeAt (writeAt chunk.content 0 (leBytes nonce16Size minNonce))
      decisionNonceSize pk.val) decisionNonceSize
        pk.val.length = pk.val := by
    refine readAt_writeAt ?_
    rw [writeAt_length, pk.property]
    exact h.fits
  rw [pk.property] at hread
  rw [readAt_persisted h.content hinside, hread]

/-- A step does not change a key. -/
theorem LedgerStep.holdsKey (h : LedgerStep heap heap')
    (hkey : HoldsKey key (heap (accountChunk account))) :
    HoldsKey key (heap' (accountChunk account)) := by
  cases h with
  | elsewhere hvisited => exact hkey.visited (hvisited account)
  | request req text status hreq hrun =>
    obtain ⟨-, hsame⟩ | ⟨-, hstep⟩ := hreq.step hrun
    · rwa [hsame]
    cases hstep with
    | transfer _ ht =>
      by_cases hs : account = text.account.value
      · obtain ⟨_, _, hdebited⟩ := ht.debited
        rw [hs] at hkey ⊢
        exact hkey.debited hdebited
      by_cases hr : account = text.recipient.value
      · obtain ⟨_, hcredited⟩ := ht.credited
        rw [hr] at hkey ⊢
        exact hkey.credited hcredited
      · rwa [ht.others _ (fun heq => hs (accountChunk_injective heq)) fun heq =>
          hr (accountChunk_injective heq)]
    | create _ hcreated hothers =>
      by_cases ha : account = text.account.value
      · -- an account that exists is not created again
        rw [ha] at hkey
        have hsize := hkey.size
        exact absurd (Nat.lt_of_lt_of_le hcreated.absent (Nat.le_trans (by decide) hsize))
          (Nat.lt_irrefl _)
      · rwa [hothers _ fun heq => ha (accountChunk_injective heq)]
    | taken _ _ hsame => rwa [hsame]
    | other _ hsame => rwa [hsame]

/-- **The key of an account is the one it was created with**,
in every state of every run after that. -/
theorem created_key_kept {heap₁ heap₂ heap₃ : Heap} {req : AppRequest} {text : ArgApp.RequestText}
    (hreq : ArgRequest heap₁ req)
    (hmethod : text.method.value = "PUT")
    (h : executeCode heap₁ req (ArgApp.dispatcher heap₁ text) = .ok (200, heap₂))
    (hrun : Relation.ReflTransGen LedgerStep heap₂ heap₃) :
    HoldsKey text.pk.value.val (heap₃ (accountChunk text.account.value)) := by
  have hcreated : HoldsKey text.pk.value.val (heap₂ (accountChunk text.account.value)) := by
    obtain ⟨hge, -⟩ | ⟨-, hstep⟩ := hreq.step h
    · exact absurd hge (by decide)
    · generalize hstatus : (200 : Int) = status at hstep
      cases hstep with
      | transfer hpatch => exact absurd (hmethod.symm.trans hpatch) (by decide)
      | create _ hcreated => exact hcreated.holdsKey
      | taken => exact absurd hstatus (by decide)
      | other hother => exact absurd hmethod hother.2
  induction hrun with
  | refl => exact hcreated
  | tail _ hstep ih => exact hstep.holdsKey ih

end

/-- A chunk that has no account yet. -/
def reservedChunk : Chunk where
  content := List.replicate 80 0
  writable := true
  capacity_le := by decide

def reservedIndex : ChunkIndex where
  chunkIndex := [accountChunk 0x400000000000001]
  sizeBoundsInfo := ⟨[accountChunk 0x400000000000001],
    [{ sizeUpperBound := 80, sizeLowerBound := 0 }], rfl⟩
  upper_le := by decide

def creationAccess : AccessMapType :=
  ⟨[argAppID], [⟨[toLex (0x400000000000001, 0)],
    [⟨[-1, 0], [⟨67, .writable, 0⟩, ⟨67, .writable, 0⟩], rfl⟩], rfl⟩], by decide⟩

/-- The request, with the modifier that is built for it. -/
def creationRequest (heap : Heap) : AppRequest where
  id := 0
  calledAppID := argAppID
  maxClocks := 1000
  modifier := ((reservedIndex.buildModifier heap creationAccess).toOption).getD
    { appsAccessMaps := .empty }
  appTable := ⟨⟨[argAppID], [true], by decide⟩⟩
  useControlledExecution := true
  failureManager := {}
  attachments := []
  signatureManager := {}

/-- The creation of an account whose key consists of this byte. -/
def creationText (byte : Byte) : ArgApp.RequestText :=
  { paymentText with
    method := ⟨.found, "PUT"⟩
    pk := ⟨.found, ⟨List.replicate publicKeySize byte, List.length_replicate⟩⟩ }

def reservedHeap : Heap := fun _ => reservedChunk

def createdHeap : Heap := heapAfter reservedHeap (creationRequest reservedHeap) (creationText 1)

/-- The account is created, and not created again with another key. -/
theorem creation_statuses :
    ((reservedIndex.buildModifier reservedHeap creationAccess).toOption.isSome ∧
    (executeCode reservedHeap (creationRequest reservedHeap)
      (ArgApp.dispatcher reservedHeap (creationText 1))).map Prod.fst = .ok 200) ∧
    (reservedIndex.buildModifier createdHeap creationAccess).toOption.isSome ∧
    (executeCode createdHeap (creationRequest createdHeap)
      (ArgApp.dispatcher createdHeap (creationText 2))).map Prod.fst = .ok 300 := by
  decide +kernel

theorem creationRequest_request {heap : Heap}
    (hbuilt : (reservedIndex.buildModifier heap creationAccess).toOption.isSome) :
    ArgRequest heap (creationRequest heap) :=
  ⟨rfl, reservedIndex, heap, creationAccess, eq_getD_of_isSome hbuilt _,
    ⟨by decide, by decide⟩, .refl _⟩

/-- After an account was created, and a second request has asked for it with another key. -/
theorem created_key_kept_once :
    HoldsKey (List.replicate publicKeySize 1)
      (heapAfter createdHeap (creationRequest createdHeap) (creationText 2)
        (accountChunk (creationText 1).account.value)) := by
  obtain ⟨⟨hbuilt, hstatus⟩, hbuilt', hstatus'⟩ := creation_statuses
  exact created_key_kept (creationRequest_request hbuilt) rfl (run_of_status hstatus)
    (.single (.request _ _ _ (creationRequest_request hbuilt') (run_of_status hstatus')))

end Argennon
