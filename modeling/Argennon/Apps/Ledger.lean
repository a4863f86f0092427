import Argennon.Apps.Requests
import Mathlib.Algebra.BigOperators.Group.Finset.Piecewise
import Mathlib.Algebra.Order.BigOperators.Group.Finset

/- The balances of the ARG application.

   The balance of an account is the number at its balance offset, where the bytes past the size of
   the chunk are zeros. What is proved: a transfer moves its amount from one account to another and
   changes no other balance, the creation of an account gives it nothing, and so the sum of all
   balances is the same in every state of a run. -/
namespace Argennon

/-- The balance that the chunk of an account holds. -/
def Chunk.balance (chunk : Chunk) : Int :=
  ((balanceOffset (decisionNonceOf chunk.content)).map (balanceAt chunk.content)).getD 0

/-- The balance of an account. -/
def balanceOf (heap : Heap) (account : LongID) : Int := (heap (accountChunk account)).balance

/-- What all accounts have. -/
def supply (heap : Heap) : Int := ∑ account : LongID, balanceOf heap account

/-- What the requests of other applications do to the chunk of an account: they may consume its
nonces. And the memory of the chunk may be moved. -/
structure Visited (chunk chunk' : Chunk) : Prop where
  chunkSize : chunk'.chunkSize = chunk.chunkSize
  zeroTail : chunk.ZeroTail → chunk'.ZeroTail
  content : ∃ mem, (mem = chunk.content ∨ nonce16Size ≤ chunk.chunkSize ∧
    NonceStep chunk.content mem) ∧
    ∀ i, i < chunk.chunkSize → chunk'.content[i]? = mem[i]?

/-- A request of the application, or what happens between two of them. -/
inductive LedgerStep (heap heap' : Heap) : Prop where
  | request (req : AppRequest) (text : ArgApp.RequestText) (status : Int)
    (hreq : ArgRequest heap req)
      (h : executeCode heap req (ArgApp.dispatcher heap text) = .ok (status, heap'))
  | elsewhere (h : ∀ account, Visited (heap (accountChunk account)) (heap' (accountChunk account)))

/-! ## Numbers -/

theorem signed64_lt (n : Nat) (h : n < 2 ^ 64) : -2 ^ 63 ≤ signed64 n ∧ signed64 n < 2 ^ 63 := by
  unfold signed64
  split <;> omega

/-- The number of a two's complement. -/
theorem signed64_bits {value : Int} (hlow : -2 ^ 63 ≤ value) (hhigh : value < 2 ^ 63) :
    signed64 (LibCall.bits 8 value) = value := by
  unfold signed64 LibCall.bits
  split <;> omega

theorem signed64_of_lt {n : Nat} (h : n < 2 ^ 63) : signed64 n = n := if_pos h

theorem leNat_readAt_lt (mem : List Byte) (offset n : Nat) :
    leNat (readAt mem offset n) < 256 ^ n := by
  have hlt := leNat_lt (readAt mem offset n)
  rwa [readAt_length] at hlt

theorem leNat_zeros : ∀ n : Nat, leNat (List.replicate n 0) = 0
  | 0 => rfl
  | n + 1 => by
    have hrest := leNat_zeros n
    rw [List.replicate_succ, leNat, hrest]
    rfl

/-! ## The memory of a chunk -/

section
variable {chunk chunk' : Chunk} {mem : List Byte} {offset n : Nat}

/-- The bytes past the size are read as zeros. -/
theorem Chunk.ZeroTail.getD_eq (h : chunk.ZeroTail) {i : Nat} (hi : chunk.chunkSize ≤ i) :
    chunk.content.getD i 0 = 0 := by
  rw [List.getD_eq_getElem?_getD]
  by_cases hlt : i < chunk.content.length
  · rw [h i hi hlt]
    rfl
  · rw [List.getElem?_eq_none (Nat.le_of_not_lt hlt)]
    rfl

theorem Chunk.ZeroTail.readAt_past (h : chunk.ZeroTail) (hle : chunk.chunkSize ≤ offset) :
    leNat (readAt chunk.content offset n) = 0 := by
  rw [← leNat_zeros n]
  congr 1
  apply List.ext_getElem?
  intro i
  rw [readAt_getElem?, List.getElem?_replicate, h.getD_eq (Nat.le_add_right_of_le hle)]

/-- Bytes that are all below the size. -/
theorem readAt_persisted (hbytes : ∀ i, i < chunk.chunkSize → chunk.content[i]? = mem[i]?)
    (hle : offset + n ≤ chunk.chunkSize) :
    readAt chunk.content offset n = readAt mem offset n := by
  apply readAt_congr
  intro i _ hhigh
  rw [List.getD_eq_getElem?_getD, List.getD_eq_getElem?_getD, hbytes i (by omega)]

theorem balanceAt_bounds (mem : List Byte) (offset : Nat) :
    -2 ^ 63 ≤ balanceAt mem offset ∧ balanceAt mem offset < 2 ^ 63 := by
  have hlt : leNat (readAt mem offset argBalanceSize) < 2 ^ 64 := leNat_readAt_lt mem offset 8
  unfold balanceAt
  exact signed64_lt _ hlt

theorem Chunk.balance_eq (h : balanceOffset (decisionNonceOf chunk.content) = some offset) :
    chunk.balance = balanceAt chunk.content offset := by
  unfold Chunk.balance
  rw [h, Option.map_some, Option.getD_some]

/-- There is no balance past the size. -/
theorem Chunk.balance_eq_zero (hzero : chunk.ZeroTail)
    (hpast : ∀ offset, balanceOffset (decisionNonceOf chunk.content) = some offset →
      chunk.chunkSize ≤ offset) : chunk.balance = 0 := by
  cases hplace : balanceOffset (decisionNonceOf chunk.content) with
  | none =>
    unfold Chunk.balance
    rw [hplace, Option.map_none, Option.getD_none]
  | some offset =>
    rw [Chunk.balance_eq hplace]
    unfold balanceAt
    rw [hzero.readAt_past (hpast offset hplace)]
    rfl

/-- An account that does not exist has nothing. -/
theorem Chunk.balance_absent (hzero : chunk.ZeroTail) (habsent : chunk.chunkSize < nonce16Size) :
    chunk.balance = 0 :=
  chunk.balance_eq_zero hzero fun _ hplace =>
    Nat.le_trans (Nat.le_of_lt habsent) (ArgApp.balanceOffset_lt hplace).1

end

/-! ## The steps -/

/-- The kind of the sender is not changed. -/
theorem Debited.decision {messages : List SignedMessage} {sender : LongID} {msg : String}
    {sigIndex amount : Int} {offset : Nat}
    {mem : List Byte} {chunk chunk' : Chunk}
    (h : Debited messages sender msg sigIndex amount offset mem chunk chunk') :
    decisionNonceOf chunk'.content = decisionNonceOf mem := by
  obtain ⟨hlow, -⟩ := ArgApp.balanceOffset_lt h.place
  have hsize : offset ≤ chunk'.chunkSize := by
    rw [h.chunkSize]
    split
    · exact Nat.le_refl _
    · exact Nat.le_trans (Nat.le_add_right _ _) h.present
  have hinside : 0 + nonce16Size ≤ chunk'.chunkSize := Nat.le_trans hlow hsize
  unfold decisionNonceOf
  rw [readAt_persisted h.content hinside]
  exact decisionNonceOf_writeAt hlow

/-- The debit takes the amount. -/
theorem Debited.balance {messages : List SignedMessage} {sender : LongID} {msg : String}
    {sigIndex amount : Int} {offset : Nat}
    {mem : List Byte} {chunk chunk' : Chunk}
    (h : Debited messages sender msg sigIndex amount offset mem chunk chunk')
    (hzero : chunk.ZeroTail) (hamount : 0 ≤ amount) :
    chunk'.balance = chunk.balance - amount ∧ amount ≤ chunk.balance ∧
      balanceOffset (decisionNonceOf chunk'.content) = some offset := by
  have hsame : balanceAt mem offset = chunk.balance := by
    rw [Chunk.balance_eq h.place]
    unfold balanceAt
    rw [h.nonce.step.balance h.place]
  have hlength : offset + argBalanceSize ≤ mem.length := by
    rw [h.nonce.step.length]
    exact Nat.le_trans h.present chunk.size_le
  have hplace : balanceOffset (decisionNonceOf chunk'.content) = some offset := by
    rw [h.decision, h.nonce.step.balanceOffset_eq, h.place]
  refine ⟨?_, hsame ▸ h.enough, hplace⟩
  have henough := h.enough
  rw [Chunk.balance_eq hplace, ← hsame]
  have hchunkSize := h.chunkSize
  split at hchunkSize
  · -- the balance was the last thing in the chunk
    rename_i hall
    unfold balanceAt at hall ⊢
    rw [(h.zeroTail hzero).readAt_past (Nat.le_of_eq hchunkSize), hall]
    exact (Int.sub_self amount).symm
  · -- the balance is read back where it was written
    have hread : readAt chunk'.content offset argBalanceSize =
        leBytes argBalanceSize (LibCall.bits 8 (balanceAt mem offset - amount)) := by
      rw [readAt_persisted h.content (by rw [hchunkSize]; exact h.present)]
      have hwritten : readAt
          (writeAt mem offset (leBytes argBalanceSize
            (LibCall.bits 8 (balanceAt mem offset - amount)))) offset
            (leBytes argBalanceSize (LibCall.bits 8 (balanceAt mem offset - amount))).length = _ :=
        readAt_writeAt (by rw [leBytes_length]; exact hlength)
      rwa [leBytes_length] at hwritten
    have hbounds := balanceAt_bounds mem offset
    calc balanceAt chunk'.content offset =
      signed64 (LibCall.bits 8 (balanceAt mem offset - amount)) := by
          have hlt : LibCall.bits 8 (balanceAt mem offset - amount) < 256 ^ argBalanceSize :=
            LibCall.bits_lt 8 _
          unfold balanceAt at hread hlt ⊢
          rw [hread, leNat_leBytes, Nat.mod_eq_of_lt hlt]
      _ = balanceAt mem offset - amount := signed64_bits (by omega) (by omega)

/-- The kind of the recipient is not changed. -/
theorem Credited.decision {amount : Int} {offset : Nat} {chunk chunk' : Chunk}
    (h : Credited amount offset chunk chunk') :
    decisionNonceOf chunk'.content = decisionNonceOf chunk.content := by
  obtain ⟨hlow, -⟩ := ArgApp.balanceOffset_lt h.place
  have hstart : 0 + nonce16Size ≤ chunk'.chunkSize := by
    rw [h.chunkSize]
    exact Nat.le_trans (Nat.le_add_right_of_le hlow) (Nat.le_max_right _ _)
  unfold decisionNonceOf
  rw [readAt_persisted h.content hstart]
  exact decisionNonceOf_writeAt hlow

/-- The credit adds the amount, unless the sum is too large. -/
theorem Credited.balance {amount : Int} {offset : Nat} {chunk chunk' : Chunk}
    (h : Credited amount offset chunk chunk')
    (hamount : 0 ≤ amount) (hbalance : 0 ≤ chunk.balance) (hsum : chunk.balance + amount < 2 ^ 63) :
    chunk'.balance = chunk.balance + amount := by
  have hinside : offset + argBalanceSize ≤ chunk'.chunkSize := by
    rw [h.chunkSize]
    exact Nat.le_max_right _ _
  have hfits : offset + argBalanceSize ≤ chunk.content.length := by
    rw [← h.length]
    exact Nat.le_trans hinside chunk'.size_le
  have hplace : balanceOffset (decisionNonceOf chunk'.content) = some offset := by
    rw [h.decision, h.place]
  rw [Chunk.balance_eq hplace]
  rw [Chunk.balance_eq h.place] at hbalance hsum ⊢
  have hread : readAt chunk'.content offset argBalanceSize =
      leBytes 8 (leNat (readAt chunk.content offset 8) + LibCall.bits 8 amount) := by
    rw [readAt_persisted h.content hinside]
    have hwritten : readAt (writeAt chunk.content offset
        (leBytes 8 (leNat (readAt chunk.content offset 8) + LibCall.bits 8 amount))) offset
          (leBytes 8 (leNat (readAt chunk.content offset 8) + LibCall.bits 8 amount)).length = _ :=
      readAt_writeAt (by rw [leBytes_length]; exact hfits)
    rwa [leBytes_length] at hwritten
  -- neither number has the sign bit
  have hold : balanceAt chunk.content offset = leNat (readAt chunk.content offset 8) := by
    have hlt : leNat (readAt chunk.content offset 8) < 2 ^ 64 := leNat_readAt_lt _ _ 8
    unfold balanceAt signed64 argBalanceSize at hbalance ⊢
    split at hbalance
    · rw [if_pos (by assumption)]
    · omega
  have hbits : (LibCall.bits 8 amount : Int) = amount := by
    unfold LibCall.bits
    omega
  have hsum : leNat (readAt chunk.content offset 8) + LibCall.bits 8 amount < 2 ^ 63 := by omega
  calc balanceAt chunk'.content offset =
    signed64 (leNat (readAt chunk.content offset 8) + LibCall.bits 8 amount) := by
        rw [balanceAt, hread, leNat_leBytes, Nat.mod_eq_of_lt (Nat.lt_of_lt_of_le hsum (by decide))]
    _ = leNat (readAt chunk.content offset 8) + LibCall.bits 8 amount := by
      rw [signed64_of_lt hsum, Nat.cast_add]
    _ = balanceAt chunk.content offset + amount := by rw [hold, hbits]

/-- A new account has the first nonce of its kind. -/
theorem Created.decision {pk : ArgApp.PublicKey} {chunk chunk' : Chunk}
    (h : Created pk chunk chunk') :
    decisionNonceOf chunk'.content = minNonce := by
  have hstart : 0 + nonce16Size ≤ chunk'.chunkSize := by
    rw [h.chunkSize]
    decide
  have hkey : decisionNonceOf chunk'.content =
      decisionNonceOf (writeAt chunk.content 0 (leBytes nonce16Size minNonce)) := by
    unfold decisionNonceOf
    rw [readAt_persisted h.content hstart]
    exact decisionNonceOf_writeAt (Nat.le_refl _)
  have hwritten : readAt (writeAt chunk.content 0 (leBytes nonce16Size minNonce)) 0
      (leBytes nonce16Size minNonce).length = _ :=
    readAt_writeAt (by rw [leBytes_length]; exact Nat.le_trans (by decide) h.fits)
  rw [leBytes_length] at hwritten
  rw [hkey, decisionNonceOf, hwritten]
  decide

/-- The creation of an account gives it nothing. -/
theorem Created.balance {pk : ArgApp.PublicKey} {chunk chunk' : Chunk} (h : Created pk chunk chunk')
    (hzero : chunk.ZeroTail) :
    chunk'.balance = chunk.balance := by
  rw [Chunk.balance_absent hzero h.absent]
  refine chunk'.balance_eq_zero (h.zeroTail hzero) fun offset hplace => ?_
  rw [h.decision, balanceOffset_min (Nat.le_refl _)] at hplace
  obtain rfl := Option.some.inj hplace
  exact Nat.le_of_eq h.chunkSize

/-- A byte by a read that covers it. -/
theorem getD_of_readAt_eq {mem mem' : List Byte} {offset n i : Nat}
    (h : readAt mem offset n = readAt mem' offset n)
    (hlow : offset ≤ i) (hhigh : i < offset + n) : mem.getD i 0 = mem'.getD i 0 := by
  have hbyte := congrArg (·[i - offset]?) h
  simp only [readAt_getElem?] at hbyte
  rw [if_pos (by omega), if_pos (by omega), Nat.add_sub_cancel' hlow] at hbyte
  exact Option.some.inj hbyte

/-- The other requests do not touch the balance. -/
theorem Visited.balance {chunk chunk' : Chunk} (h : Visited chunk chunk') (hzero : chunk.ZeroTail) :
    chunk'.balance = chunk.balance := by
  by_cases habsent : chunk.chunkSize < nonce16Size
  · rw [Chunk.balance_absent hzero habsent,
      Chunk.balance_absent (h.zeroTail hzero) (by rwa [h.chunkSize])]
  obtain ⟨mem, hmem, hbytes⟩ := h.content
  have hstep : NonceStep chunk.content mem := by
    obtain rfl | ⟨-, hstep⟩ := hmem
    · exact .kept
    · exact hstep
  have hplace : balanceOffset (decisionNonceOf chunk'.content) =
      balanceOffset (decisionNonceOf chunk.content) := by
    have hstart : 0 + nonce16Size ≤ chunk'.chunkSize := by
      rw [h.chunkSize]
      omega
    rw [← hstep.balanceOffset_eq]
    unfold decisionNonceOf
    rw [readAt_persisted (by rwa [h.chunkSize]) hstart]
  cases hoffset : balanceOffset (decisionNonceOf chunk.content) with
  | none =>
    unfold Chunk.balance
    rw [hplace, hoffset, Option.map_none, Option.map_none]
  | some offset =>
    rw [Chunk.balance_eq hoffset, Chunk.balance_eq (hplace.trans hoffset)]
    unfold balanceAt
    rw [readAt_congr fun i hlow hhigh => ?_]
    by_cases hi : i < chunk.chunkSize
    · rw [List.getD_eq_getElem?_getD, hbytes i hi, ← List.getD_eq_getElem?_getD]
      exact getD_of_readAt_eq (hstep.balance hoffset) hlow hhigh
    · rw [hzero.getD_eq (Nat.le_of_not_lt hi),
        (h.zeroTail hzero).getD_eq (by rw [h.chunkSize]; exact Nat.le_of_not_lt hi)]

/-! ## The sum -/

/-- An amount that is moved from one place to another. -/
theorem sum_moved {ι M : Type} [Fintype ι] [DecidableEq ι] [AddCommGroup M] {f f' : ι → M}
    {a b : ι} {m : M}
    (h : ∀ i, f' i = f i + (if i = b then m else 0) - if i = a then m else 0) :
    ∑ i, f' i = ∑ i, f i := by
  calc ∑ i, f' i = ∑ i, f i + ∑ i, (if i = b then m else 0) - ∑ i, (if i = a then m else 0) := by
        rw [← Finset.sum_add_distrib, ← Finset.sum_sub_distrib]
        exact Finset.sum_congr rfl fun i _ => h i
    _ = ∑ i, f i := by
      rw [Finset.sum_ite_eq' Finset.univ b, Finset.sum_ite_eq' Finset.univ a,
        if_pos (Finset.mem_univ b),
        if_pos (Finset.mem_univ a), add_sub_cancel_right]

/-- The balances are numbers of money, and all of them together are too. -/
structure LedgerSound (heap : Heap) : Prop where
  zeroTail : ∀ account, (heap (accountChunk account)).ZeroTail
  nonnegative : ∀ account, 0 ≤ balanceOf heap account
  bounded : supply heap < 2 ^ 63

namespace LedgerSound
variable {heap heap' : Heap}

/-- Two accounts have no more than there is. -/
theorem pair_le (h : LedgerSound heap) {a b : LongID} (hne : a ≠ b) :
    balanceOf heap a + balanceOf heap b ≤ supply heap := by
  rw [← Finset.sum_pair hne]
  exact Finset.sum_le_univ_sum_of_nonneg h.nonnegative

theorem le_supply (h : LedgerSound heap) (account : LongID) :
    balanceOf heap account ≤ supply heap :=
  Finset.single_le_sum (fun a _ => h.nonnegative a) (Finset.mem_univ account)

/-- A transfer moves the amount. -/
theorem transferred (h : LedgerSound heap) {messages : List SignedMessage}
    {sender recipient : LongID} {amount : Int64} {sigIndex : Int16}
    (ht : Transferred heap heap' messages sender recipient amount sigIndex) :
    amount.toInt ≤ balanceOf heap sender ∧
      ∀ account, balanceOf heap' account =
        balanceOf heap account + (if account = recipient then amount.toInt else 0) - if account =
          sender then amount.toInt else 0 := by
  obtain ⟨offset, mem, hdebited⟩ := ht.debited
  obtain ⟨hsender, henough, -⟩ := hdebited.balance (h.zeroTail sender) ht.nonnegative
  obtain ⟨offset', hcredited⟩ := ht.credited
  have hsum := h.pair_le ht.distinct
  have hbounded := h.bounded
  have hrecipient := hcredited.balance ht.nonnegative (h.nonnegative recipient)
    (by unfold balanceOf at hsum; omega)
  refine ⟨henough, fun account => ?_⟩
  by_cases hs : account = sender
  · subst hs
    rw [if_neg ht.distinct, if_pos rfl, add_zero]
    exact hsender
  by_cases hr : account = recipient
  · subst hr
    rw [if_pos rfl, if_neg hs, sub_zero]
    exact hrecipient
  · rw [if_neg hr, if_neg hs, add_zero, sub_zero]
    exact congrArg Chunk.balance (ht.others _ (fun heq => hs (accountChunk_injective heq))
      fun heq => hr (accountChunk_injective heq))

/-- A step of the dispatcher. -/
theorem argStep (h : LedgerSound heap) {messages : List SignedMessage} {text : ArgApp.RequestText}
    {status : Int}
    (hstep : ArgStep messages text heap heap' status) :
    LedgerSound heap' ∧ supply heap' = supply heap := by
  cases hstep with
  | transfer _ ht =>
    obtain ⟨henough, hmoved⟩ := h.transferred ht
    have hsupply : supply heap' = supply heap := sum_moved hmoved
    refine ⟨⟨fun account => ?_, fun account => ?_, by rw [hsupply]; exact h.bounded⟩, hsupply⟩
    · obtain ⟨_, _, hdebited⟩ := ht.debited
      obtain ⟨_, hcredited⟩ := ht.credited
      by_cases hs : account = text.account.value
      · rw [hs]
        exact hdebited.zeroTail (h.zeroTail _)
      by_cases hr : account = text.recipient.value
      · rw [hr]
        exact hcredited.zeroTail (h.zeroTail _)
      · rw [ht.others _ (fun heq => hs (accountChunk_injective heq)) fun heq =>
          hr (accountChunk_injective heq)]
        exact h.zeroTail account
    · have hbefore := h.nonnegative account
      have hamount := ht.nonnegative
      rw [hmoved account]
      by_cases hs : account = text.account.value
      · rw [if_pos hs, if_neg fun hr => ht.distinct (hs.symm.trans hr)]
        rw [hs]
        omega
      · rw [if_neg hs]
        split <;> omega
  | create _ hcreated hothers =>
    -- the new account has no balance, and the others are not touched
    have hsame (account : LongID) : balanceOf heap' account = balanceOf heap account := by
      by_cases ha : account = text.account.value
      · rw [ha]
        exact hcreated.balance (h.zeroTail _)
      · exact congrArg Chunk.balance (hothers _ fun heq => ha (accountChunk_injective heq))
    have hsupply : supply heap' = supply heap := Finset.sum_congr rfl fun account _ => hsame account
    refine ⟨⟨fun account => ?_, fun account => by rw [hsame]; exact h.nonnegative account,
      by rw [hsupply]; exact h.bounded⟩, hsupply⟩
    by_cases ha : account = text.account.value
    · rw [ha]
      exact hcreated.zeroTail (h.zeroTail _)
    · rw [hothers _ fun heq => ha (accountChunk_injective heq)]
      exact h.zeroTail account
  | taken _ _ hsame =>
    rw [hsame]
    exact ⟨h, rfl⟩
  | other _ hsame =>
    rw [hsame]
    exact ⟨h, rfl⟩

/-- A step of a run. -/
theorem step (h : LedgerSound heap) (hstep : LedgerStep heap heap') :
    LedgerSound heap' ∧ supply heap' = supply heap := by
  cases hstep with
  | request req text status hreq hrun =>
    obtain ⟨-, hsame⟩ | ⟨-, hstep⟩ := hreq.step hrun
    · rw [hsame]
      exact ⟨h, rfl⟩
    · exact h.argStep hstep
  | elsewhere hvisited =>
    have hsame (account : LongID) : balanceOf heap' account = balanceOf heap account :=
      (hvisited account).balance (h.zeroTail account)
    have hsupply : supply heap' = supply heap := Finset.sum_congr rfl fun account _ => hsame account
    exact ⟨⟨fun account => (hvisited account).zeroTail (h.zeroTail account),
      fun account => by rw [hsame]; exact h.nonnegative account,
      by rw [hsupply]; exact h.bounded⟩, hsupply⟩

end LedgerSound

/-- **The sum of all balances is the same in every state of a run**, and no balance is negative or
more than this sum. -/
theorem supply_conserved {heap heap' : Heap} (hsound : LedgerSound heap)
    (hrun : Relation.ReflTransGen LedgerStep heap heap') :
    supply heap' = supply heap ∧
      ∀ account, 0 ≤ balanceOf heap' account ∧ balanceOf heap' account ≤ supply heap := by
  have hkept : LedgerSound heap' ∧ supply heap' = supply heap := by
    induction hrun with
    | refl => exact ⟨hsound, rfl⟩
    | tail _ hstep ih =>
      obtain ⟨hsound', hsupply⟩ := ih.1.step hstep
      exact ⟨hsound', hsupply.trans ih.2⟩
  obtain ⟨hsound', hsupply⟩ := hkept
  exact ⟨hsupply, fun account => ⟨hsound'.nonnegative account,
    by rw [← hsupply]; exact hsound'.le_supply account⟩⟩

theorem normalAccounts_balance (account : LongID) :
    balanceOf normalAccounts account = if account = 0x400000000000001 then 7 else 0 := by
  have hchunks : (keyAccount minNonce 7 []).balance = 7 ∧ (keyAccount minNonce 0 []).balance = 0 ∧
      Chunk.empty.balance = 0 := by
    decide +kernel
  unfold balanceOf normalAccounts twoAccounts
  by_cases h₁ : account = 0x400000000000001
  · rw [if_pos h₁, if_pos (congrArg accountChunk h₁), hchunks.1]
  rw [if_neg h₁, if_neg fun h => h₁ (accountChunk_injective h)]
  split
  · exact hchunks.2.1
  · exact hchunks.2.2

theorem normalAccounts_sound : LedgerSound normalAccounts where
  zeroTail account := by
    apply Chunk.zeroTail_of_full
    unfold normalAccounts twoAccounts
    split
    · exact Nat.le_refl _
    · split <;> exact Nat.le_refl _
  nonnegative account := by
    rw [normalAccounts_balance]
    split <;> decide
  bounded := by
    unfold supply
    rw [Finset.sum_congr rfl fun account _ => normalAccounts_balance account,
      Finset.sum_ite_eq' Finset.univ, if_pos (Finset.mem_univ _)]
    decide

/-- In a run with one payment. -/
theorem supply_conserved_payment : supply normalAccounts₁ = supply normalAccounts ∧
    ∀ account, 0 ≤ balanceOf normalAccounts₁ account ∧
      balanceOf normalAccounts₁ account ≤ supply normalAccounts :=
  supply_conserved normalAccounts_sound
    (.single (.request _ paymentText 200 (normalAccounts_pays.request normalBlocks_access)
      normalAccounts_pays.run))

/-- **A transfer is executed as a whole or not at all.** If it succeeds, the recipient is another
account, which gets what the sender, who has it, pays, and no other chunk is changed. -/
theorem transfer_exact {heap heap' : Heap} {req : AppRequest} {text : ArgApp.RequestText}
    {status : Int} (hsound : LedgerSound heap)
    (hreq : ArgRequest heap req) (hmethod : text.method.value = "PATCH")
    (h : executeCode heap req (ArgApp.dispatcher heap text) = .ok (status, heap')) :
    (400 ≤ status ∧ heap' = heap) ∨ status = 200 ∧ text.account.value ≠ text.recipient.value ∧
    0 ≤ text.amount.value.toInt ∧
      text.amount.value.toInt ≤ balanceOf heap text.account.value ∧
      (∀ account, balanceOf heap' account = balanceOf heap account +
        (if account = text.recipient.value then text.amount.value.toInt else 0) -
        if account = text.account.value then text.amount.value.toInt else 0) ∧
      ∀ id, id ≠ accountChunk text.account.value → id ≠ accountChunk text.recipient.value →
        heap' id = heap id := by
  obtain hfailed | ⟨-, hstep⟩ := hreq.step h
  · exact .inl hfailed
  right
  cases hstep with
  | transfer _ ht =>
    obtain ⟨henough, hmoved⟩ := hsound.transferred ht
    exact ⟨rfl, ht.distinct, ht.nonnegative, henough, hmoved, ht.others⟩
  | create hput => exact absurd (hmethod.symm.trans hput) (by decide)
  | taken hput => exact absurd (hmethod.symm.trans hput) (by decide)
  | other hother => exact absurd hmethod hother.1

/-- For a payment that succeeds. -/
theorem transfer_exact_payment : 2 ≤ balanceOf normalAccounts 0x400000000000001 ∧
    ∀ account, balanceOf normalAccounts₁ account =
    balanceOf normalAccounts account + (if account = 0x400000000000002 then 2 else 0) - if account =
      0x400000000000001 then 2 else 0 := by
  have hexact := transfer_exact normalAccounts_sound
    (normalAccounts_pays.request normalBlocks_access)
    (rfl : paymentText.method.value = "PATCH") normalAccounts_pays.run
  obtain ⟨hfailed, -⟩ | ⟨-, -, -, henough, hmoved, -⟩ := hexact
  · exact absurd hfailed (by decide)
  · exact ⟨henough, hmoved⟩

end Argennon
