import Argennon.Apps.Ledger

/- The conservation of ARG by what is stored in the chunks.

   The balance of an account is stored if its chunk contains it, and an account whose chunk ends
   before it has nothing. A credit makes such a chunk longer and adds to what the memory holds
   there, so what is conserved depends on the bytes past the size of a chunk: they are zeros. -/
namespace Argennon

/-- The balance that is stored inside the chunk of an account. -/
def Chunk.storedBalance (chunk : Chunk) : Int :=
  ((balanceOffset (decisionNonceOf chunk.content)).map fun offset =>
    if offset + argBalanceSize ≤ chunk.chunkSize then balanceAt chunk.content offset else 0).getD 0

/-- The chunk ends before the balance, or contains all of it. -/
def Chunk.BalanceWhole (chunk : Chunk) : Prop :=
  ∀ offset, balanceOffset (decisionNonceOf chunk.content) = some offset →
    chunk.chunkSize ≤ offset ∨ offset + argBalanceSize ≤ chunk.chunkSize

def storedBalanceOf (heap : Heap) (account : LongID) : Int :=
  (heap (accountChunk account)).storedBalance

/-- What all accounts have stored. -/
def storedSupply (heap : Heap) : Int := ∑ account : LongID, storedBalanceOf heap account

/-- No balance is negative or cut in two, and all of them together are a number of money. -/
structure Solvent (heap : Heap) : Prop where
  whole : ∀ account, (heap (accountChunk account)).BalanceWhole
  nonnegative : ∀ account, 0 ≤ storedBalanceOf heap account
  bounded : storedSupply heap < 2 ^ 63

/-- The execution of a transfer request, which may fail. -/
inductive TransferStep (heap heap' : Heap) : Prop where
  | request (req : AppRequest) (text : ArgApp.RequestText) (status : Int)
    (hreq : ArgRequest heap req) (hmethod : text.method.value = "PATCH")
      (h : executeCode heap req (ArgApp.dispatcher heap text) = .ok (status, heap'))

section
variable {chunk chunk' : Chunk} {heap heap' : Heap}

/-- Past the size there are zeros, so the balance is what is stored. -/
theorem Chunk.storedBalance_eq (hzero : chunk.ZeroTail) (hwhole : chunk.BalanceWhole) :
    chunk.storedBalance = chunk.balance := by
  unfold Chunk.storedBalance
  cases hplace : balanceOffset (decisionNonceOf chunk.content) with
  | none =>
    unfold Chunk.balance
    rw [hplace, Option.map_none, Option.map_none]
  | some offset =>
    rw [Chunk.balance_eq hplace, Option.map_some, Option.getD_some]
    obtain hpast | hinside := hwhole offset hplace
    · rw [if_neg (Nat.not_le.mpr (Nat.lt_of_le_of_lt hpast (Nat.lt_add_of_pos_right (by decide))))]
      unfold balanceAt
      rw [hzero.readAt_past hpast]
      rfl
    · rw [if_pos hinside]

/-- The sender ends at its balance, or as before. -/
theorem Debited.whole {messages : List SignedMessage} {sender : LongID} {msg : String}
    {sigIndex amount : Int} {offset : Nat} {mem : List Byte}
    (h : Debited messages sender msg sigIndex amount offset mem chunk chunk') :
    chunk'.BalanceWhole := by
  intro offset' hplace'
  have hplace : balanceOffset (decisionNonceOf chunk'.content) = some offset := by
    rw [h.decision, h.nonce.step.balanceOffset_eq, h.place]
  obtain rfl := Option.some.inj (hplace'.symm.trans hplace)
  have hsize := h.chunkSize
  split at hsize
  · exact .inl (Nat.le_of_eq hsize)
  · exact .inr (hsize ▸ h.present)

/-- The recipient contains its balance. -/
theorem Credited.whole {amount : Int} {offset : Nat} (h : Credited amount offset chunk chunk') :
    chunk'.BalanceWhole := by
  intro offset' hplace'
  rw [h.decision] at hplace'
  obtain rfl := Option.some.inj (hplace'.symm.trans h.place)
  refine .inr ?_
  rw [h.chunkSize]
  exact Nat.le_max_right _ _

/-- A transfer leaves every balance whole. -/
theorem Transferred.whole {messages : List SignedMessage} {sender recipient : LongID}
    {amount : Int64} {sigIndex : Int16}
    (h : Transferred heap heap' messages sender recipient amount sigIndex)
    (hwhole : ∀ account, (heap (accountChunk account)).BalanceWhole) (account : LongID) :
    (heap' (accountChunk account)).BalanceWhole := by
  by_cases hs : account = sender
  · obtain ⟨_, _, hdebited⟩ := h.debited
    rw [hs]
    exact hdebited.whole
  by_cases hr : account = recipient
  · obtain ⟨_, hcredited⟩ := h.credited
    rw [hr]
    exact hcredited.whole
  · rw [h.others _ (fun heq => hs (accountChunk_injective heq)) fun heq =>
      hr (accountChunk_injective heq)]
    exact hwhole account

namespace Solvent

/-- With zeros past the sizes of the chunks, what is stored is what the accounts have. -/
theorem stored_eq (h : Solvent heap) (hzero : ∀ account, (heap (accountChunk account)).ZeroTail)
    (account : LongID) : storedBalanceOf heap account = balanceOf heap account :=
  Chunk.storedBalance_eq (hzero account) (h.whole account)

theorem supply_eq (h : Solvent heap) (hzero : ∀ account, (heap (accountChunk account)).ZeroTail) :
    storedSupply heap = supply heap :=
  Finset.sum_congr rfl fun account _ => h.stored_eq hzero account

theorem sound (h : Solvent heap) (hzero : ∀ account, (heap (accountChunk account)).ZeroTail) :
    LedgerSound heap where
  zeroTail := hzero
  nonnegative account := by
    rw [← h.stored_eq hzero]
    exact h.nonnegative account
  bounded := by
    rw [← h.supply_eq hzero]
    exact h.bounded

theorem of_sound (hsound : LedgerSound heap)
    (hwhole : ∀ account, (heap (accountChunk account)).BalanceWhole) : Solvent heap := by
  have hstored (account : LongID) : storedBalanceOf heap account = balanceOf heap account :=
    Chunk.storedBalance_eq (hsound.zeroTail account) (hwhole account)
  have hsupply : storedSupply heap = supply heap := Finset.sum_congr rfl fun a _ => hstored a
  refine ⟨hwhole, fun account => ?_, ?_⟩
  · rw [hstored]
    exact hsound.nonnegative account
  · rw [hsupply]
    exact hsound.bounded

/-- What a transfer request does: nothing, or it moves its amount. -/
theorem request (h : Solvent heap) (hzero : ∀ account, (heap (accountChunk account)).ZeroTail)
    {req : AppRequest} {text : ArgApp.RequestText} {status : Int} (hreq : ArgRequest heap req)
    (hmethod : text.method.value = "PATCH")
    (hrun : executeCode heap req (ArgApp.dispatcher heap text) = .ok (status, heap')) :
    (400 ≤ status ∧ heap' = heap) ∨
      status < 400 ∧ Transferred heap heap' req.signatureManager.messages text.account.value
        text.recipient.value text.amount.value text.sigIndex.value.toInt16 ∧ Solvent heap' ∧
      (∀ account, (heap' (accountChunk account)).ZeroTail) ∧
      ∀ account, storedBalanceOf heap' account = storedBalanceOf heap account +
        (if account = text.recipient.value then text.amount.value.toInt else 0) -
        if account = text.account.value then text.amount.value.toInt else 0 := by
  obtain hfailed | ⟨hstatus, hstep⟩ := hreq.step hrun
  · exact .inl hfailed
  refine .inr ⟨hstatus, ?_⟩
  obtain ⟨hsound', -⟩ := (h.sound hzero).argStep hstep
  cases hstep with
  | transfer _ ht =>
    have hwhole := ht.whole h.whole
    have hsolvent : Solvent heap' := of_sound hsound' hwhole
    refine ⟨ht, hsolvent, hsound'.zeroTail, fun account => ?_⟩
    rw [hsolvent.stored_eq hsound'.zeroTail, h.stored_eq hzero]
    exact ((h.sound hzero).transferred ht).2 account
  | create hput => exact absurd (hmethod.symm.trans hput) (by decide)
  | taken hput => exact absurd (hmethod.symm.trans hput) (by decide)
  | other hother => exact absurd hmethod hother.1

/-- A step of a run of transfers. -/
theorem step (h : Solvent heap) (hzero : ∀ account, (heap (accountChunk account)).ZeroTail)
    (hstep : TransferStep heap heap') :
    Solvent heap' ∧ (∀ account, (heap' (accountChunk account)).ZeroTail) ∧
      storedSupply heap' = storedSupply heap := by
  obtain ⟨req, text, status, hreq, hmethod, hrun⟩ := hstep
  obtain ⟨-, rfl⟩ | ⟨-, -, hsolvent, hzero', hmoved⟩ := h.request hzero hreq hmethod hrun
  · exact ⟨h, hzero, rfl⟩
  · exact ⟨hsolvent, hzero', sum_moved hmoved⟩

end Solvent
end

/-- **Conservation.** The chunks have zeros past their sizes. After any run of transfers all
accounts together have stored what they had, and none has a negative balance; and the transfer that
comes next fails and changes no chunk, or it moves exactly its amount. -/
theorem transfers_conserve {heap heap' : Heap} (hsolvent : Solvent heap)
    (hzero : ∀ account, (heap (accountChunk account)).ZeroTail)
    (hrun : Relation.ReflTransGen TransferStep heap heap') :
    storedSupply heap' = storedSupply heap ∧ (∀ account, 0 ≤ storedBalanceOf heap' account) ∧
      ∀ (req : AppRequest) (text : ArgApp.RequestText) (status : Int) (heap'' : Heap),
        ArgRequest heap' req → text.method.value = "PATCH" →
        executeCode heap' req (ArgApp.dispatcher heap' text) = .ok (status, heap'') →
        (400 ≤ status ∧ heap'' = heap') ∨ status < 400 ∧
          text.account.value ≠ text.recipient.value ∧
          ∀ account, storedBalanceOf heap'' account = storedBalanceOf heap' account +
            (if account = text.recipient.value then text.amount.value.toInt else 0) -
            if account = text.account.value then text.amount.value.toInt else 0 := by
  have hkept : Solvent heap' ∧ (∀ account, (heap' (accountChunk account)).ZeroTail) ∧
      storedSupply heap' = storedSupply heap := by
    induction hrun with
    | refl => exact ⟨hsolvent, hzero, rfl⟩
    | tail _ hstep ih =>
      obtain ⟨hmid, hmidZero, hsupply⟩ := ih
      obtain ⟨hnext, hnextZero, hsame⟩ := hmid.step hmidZero hstep
      exact ⟨hnext, hnextZero, hsame.trans hsupply⟩
  obtain ⟨hsolvent', hzero', hsupply⟩ := hkept
  refine ⟨hsupply, hsolvent'.nonnegative, fun req text status heap'' hreq hmethod hexec => ?_⟩
  obtain hfailed | ⟨hstatus, ht, -, -, hmoved⟩ := hsolvent'.request hzero' hreq hmethod hexec
  · exact .inl hfailed
  · exact .inr ⟨hstatus, ht.distinct, hmoved⟩

theorem Chunk.balanceWhole_of {chunk : Chunk} (offset : Nat)
    (hplace : balanceOffset (decisionNonceOf chunk.content) = some offset)
    (h : chunk.chunkSize ≤ offset ∨ offset + argBalanceSize ≤ chunk.chunkSize) :
    chunk.BalanceWhole := by
  intro offset' hplace'
  obtain rfl := Option.some.inj (hplace'.symm.trans hplace)
  exact h

theorem Chunk.empty_whole : Chunk.empty.BalanceWhole := fun _ _ => .inl (Nat.zero_le _)

theorem normalAccounts_solvent : Solvent normalAccounts := by
  refine .of_sound normalAccounts_sound fun account => ?_
  unfold normalAccounts twoAccounts
  split
  · exact Chunk.balanceWhole_of 67 (by decide +kernel) (by decide +kernel)
  split
  · exact Chunk.balanceWhole_of 67 (by decide +kernel) (by decide +kernel)
  · exact Chunk.empty_whole

/-- In a run with one payment. -/
theorem transfers_conserve_payment : storedSupply normalAccounts₁ = storedSupply normalAccounts :=
  (transfers_conserve normalAccounts_solvent normalAccounts_sound.zeroTail
    (.single (.request _ paymentText 200 (normalAccounts_pays.request normalBlocks_access) rfl
      normalAccounts_pays.run))).1

/-! ## A byte past the size -/

/-- A normal account without a balance, whose memory holds 5 where the balance will be. -/
def strayAccount : Chunk where
  content := (keyAccount minNonce 5 []).content
  chunkSize := 67
  writable := true
  size_le := by decide
  capacity_le := by decide

def strayAccounts : Heap := fun id =>
  if id = accountChunk 0x400000000000001 then keyAccount minNonce 7 []
  else if id = accountChunk 0x400000000000002 then strayAccount
  else .empty

def strayIndex : ChunkIndex where
  chunkIndex := [accountChunk 0x400000000000001, accountChunk 0x400000000000002]
  sizeBoundsInfo := .single (accountChunk 0x400000000000002)
    { sizeUpperBound := 75, sizeLowerBound := 67 }
  upper_le := by decide

def strayAccess : AccessMapType :=
  .single argAppID ⟨[toLex (0x400000000000001, 0), toLex (0x400000000000002, 0)],
    [normalBlocks, enlargedBlocks], by decide⟩

def strayRequest : AppRequest :=
  { paymentRequest strayAccounts normalBlocks "8" with
    modifier := ((strayIndex.buildModifier strayAccounts strayAccess).toOption).getD
      { appsAccessMaps := .empty } }

def strayHeap : Heap := heapAfter strayAccounts strayRequest paymentText

theorem strayAccounts_balance (account : LongID) :
    storedBalanceOf strayAccounts account = if account = 0x400000000000001 then 7 else 0 := by
  have hchunks : (keyAccount minNonce 7 []).storedBalance = 7 ∧ strayAccount.storedBalance = 0 ∧
      Chunk.empty.storedBalance = 0 := by
    decide +kernel
  unfold storedBalanceOf strayAccounts
  by_cases h₁ : account = 0x400000000000001
  · rw [if_pos h₁, if_pos (congrArg accountChunk h₁), hchunks.1]
  rw [if_neg h₁, if_neg fun h => h₁ (accountChunk_injective h)]
  split
  · exact hchunks.2.1
  · exact hchunks.2.2

theorem strayAccounts_solvent : Solvent strayAccounts where
  whole account := by
    unfold strayAccounts
    split
    · exact Chunk.balanceWhole_of 67 (by decide +kernel) (by decide +kernel)
    split
    · exact Chunk.balanceWhole_of 67 (by decide +kernel) (by decide +kernel)
    · exact Chunk.empty_whole
  nonnegative account := by
    rw [strayAccounts_balance]
    split <;> decide
  bounded := by
    unfold storedSupply
    rw [Finset.sum_congr rfl fun account _ => strayAccounts_balance account,
      Finset.sum_ite_eq' Finset.univ, if_pos (Finset.mem_univ _)]
    decide

theorem strayRequest_pays :
    (strayIndex.buildModifier strayAccounts strayAccess).toOption.isSome ∧
      (executeCode strayAccounts strayRequest
        (ArgApp.dispatcher strayAccounts paymentText)).map Prod.fst = .ok 200 := by decide +kernel

/-- **A stray byte is credited.** The heap is as it should be but for a byte past the size of a
chunk, the transfer of 2 succeeds, and the recipient has 7 instead of 2. -/
theorem stray_byte_credited : ∃ (heap heap' : Heap) (req : AppRequest)
    (text : ArgApp.RequestText), Solvent heap ∧ ArgRequest heap req ∧
      text.method.value = "PATCH" ∧
      executeCode heap req (ArgApp.dispatcher heap text) = .ok (200, heap') ∧
      text.amount.value.toInt = 2 ∧ storedBalanceOf heap text.recipient.value = 0 ∧
      storedBalanceOf heap' text.recipient.value = 7 := by
  have hreq : ArgRequest strayAccounts strayRequest :=
    ⟨rfl, strayIndex, strayAccounts, strayAccess,
      eq_getD_of_isSome strayRequest_pays.1 { appsAccessMaps := .empty },
      ⟨by decide, by decide⟩, .refl _⟩
  have hbalances : storedBalanceOf strayAccounts paymentText.recipient.value = 0 ∧
      storedBalanceOf strayHeap paymentText.recipient.value = 7 := by decide +kernel
  exact ⟨strayAccounts, strayHeap, strayRequest, paymentText, strayAccounts_solvent, hreq, rfl,
    run_of_status strayRequest_pays.2, by decide, hbalances⟩

end Argennon
