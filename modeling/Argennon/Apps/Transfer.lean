import Argennon.Apps.Account

/- What a transfer of the ARG application leaves in the heap.

   A transfer that returns has debited the sender and credited the recipient in the views of their
   chunks, and the write-back makes them the memory of the chunks. `Transferred` says what that is,
   byte by byte. -/
namespace Argennon

/-- The balance at an offset. -/
def balanceAt (mem : List Byte) (offset : Nat) : Int :=
  signed64 (leNat (readAt mem offset argBalanceSize))

/-- What the sender of a transfer has signed, without its end. -/
def transferText (recipient : LongID) (amount : Int64) : String :=
  "" ++ "\x7b\"to\":" ++ LongID.toString recipient ++ ",\"amount\":" ++ toString amount.toInt

/-- What a transfer does to the chunk of its sender, whose balance is at the offset: the
verification leaves `mem`, and the amount is taken from it. A chunk whose balance is used up ends
where the balance was. -/
structure Debited (messages : List SignedMessage) (sender : LongID) (msg : String)
    (sigIndex amount : Int) (offset : Nat) (mem : List Byte)
    (chunk chunk' : Chunk) : Prop where
  place : balanceOffset (decisionNonceOf chunk.content) = some offset
  nonce : NonceUse messages sender msg sigIndex chunk.content mem
  present : offset + argBalanceSize ≤ chunk.chunkSize
  enough : amount ≤ balanceAt mem offset
  chunkSize : chunk'.chunkSize = if balanceAt mem offset = amount then offset else chunk.chunkSize
  length : chunk'.content.length = chunk.content.length
  content : ∀ i, i < chunk'.chunkSize →
    chunk'.content[i]? = (writeAt mem offset
      (leBytes argBalanceSize (LibCall.bits 8 (balanceAt mem offset - amount))))[i]?
  zeroTail : chunk.ZeroTail → chunk'.ZeroTail

/-- What a transfer does to the chunk of its recipient. -/
structure Credited (amount : Int) (offset : Nat) (chunk chunk' : Chunk) : Prop where
  place : balanceOffset (decisionNonceOf chunk.content) = some offset
  exist : nonce16Size ≤ chunk.chunkSize
  chunkSize : chunk'.chunkSize = max chunk.chunkSize (offset + argBalanceSize)
  length : chunk'.content.length = chunk.content.length
  content : ∀ i, i < chunk'.chunkSize →
    chunk'.content[i]? = (writeAt chunk.content offset
      (leBytes 8 (leNat (readAt chunk.content offset 8) + LibCall.bits 8 amount)))[i]?
  zeroTail : chunk.ZeroTail → chunk'.ZeroTail

/-- What a transfer does to the heap. -/
structure Transferred (heap heap' : Heap) (messages : List SignedMessage)
    (sender recipient : LongID) (amount : Int64)
    (sigIndex : Int16) : Prop where
  distinct : sender ≠ recipient
  nonnegative : 0 ≤ amount.toInt
  debited : ∃ offset mem, Debited messages sender (transferText recipient amount) sigIndex.toInt
    amount.toInt offset mem
    (heap (accountChunk sender)) (heap' (accountChunk sender))
  credited : ∃ offset, Credited amount.toInt offset (heap (accountChunk recipient))
    (heap' (accountChunk recipient))
  others : ∀ id, id ≠ accountChunk sender → id ≠ accountChunk recipient → heap' id = heap id

theorem LibCall.bits_lt (n : Nat) (value : Int) : LibCall.bits n value < 256 ^ n := by
  have hpos : (0 : Int) < 256 ^ n := by positivity
  have hlt := Int.emod_lt_of_pos value hpos
  have hnonneg := Int.emod_nonneg value (Int.ne_of_gt hpos)
  unfold LibCall.bits
  zify
  rwa [Int.toNat_of_nonneg hnonneg]

namespace ArgApp
variable {heap : Heap} {m₀ : AppMap AccessBlock} {views : FullID → ChunkView} {s s' : Session}

/-! ## The steps of a transfer -/

theorem toUInt32_natCast {n : Nat} (h : n < 2 ^ 32) : toUInt32 (n : Int) = n := by
  unfold toUInt32
  omega

/-- A condition that does not revert. -/
theorem revertIf_ok {condition : Bool} {msg : String}
    (h : revertIf heap condition msg s = (.ok (.ok ()), s')) :
    condition = false ∧ s' = s := by
  unfold revertIf at h
  split at h
  · have hraise := AppCode.callLib_eq_ok h
    cases hraise
  · rename_i hfalse
    exact ⟨by simpa using hfalse, (Prod.mk.inj h).2.symm⟩

section
variable {c₀ : ChunkInfo AccessBlock}

/-- The chunk of an account is loaded. -/
theorem loadAccountChunk_sees (h : InContext argAppID heap m₀ views s) (hlaid : Laid m₀)
    {account : LongID}
    (hrun : AppCode.call heap (.load_account_chunk account 0) s = (.ok (.ok ()), s')) :
    s'.heapModifier.currentVersion = s.heapModifier.currentVersion ∧
      ∃ c₀, c₀.ptr = accountChunk account ∧
      AtChunk argAppID heap m₀ views c₀ s' :=
  (h.loadAccountChunk hlaid (AppCode.callLib_eq_ok hrun)).2

theorem invalid_sees (h : AtChunk argAppID heap m₀ views c₀ s) (hlaid : Laid m₀) {offset size : Nat}
    (hoffset : offset < 2 ^ 31)
    (hsize : size < 2 ^ 31) {missing : Bool}
    (hrun : invalid heap offset size s = (.ok (.ok missing), s')) :
    AtChunk argAppID heap m₀ views c₀ s' ∧
      s'.heapModifier.currentVersion = s.heapModifier.currentVersion ∧
      missing = !decide (offset + size ≤ (views c₀.ptr).size) := by
  obtain ⟨valid, t, hvalid, hresult⟩ := ArgC.bind_eq_ok (AppCode.callLib_eq_ok hrun)
  obtain ⟨hmissing, rfl⟩ := Prod.mk.inj hresult
  rw [toUInt32_natCast (by omega), toUInt32_natCast (by omega)] at hvalid
  obtain ⟨hat, hmaps, rfl⟩ := h.isValid hlaid hvalid
  exact ⟨hat, hmaps.currentVersion, (Except.ok.inj hmissing).symm⟩

theorem resizeIf_sees (h : AtChunk argAppID heap m₀ views c₀ s) (hlaid : Laid m₀) {condition : Bool}
    {newSize : Nat}
    (hlt : newSize < 2 ^ 31) (hrun : resizeIf heap condition newSize s = (.ok (.ok ()), s')) :
    s'.heapModifier.currentVersion = s.heapModifier.currentVersion ∧ AtChunk argAppID heap m₀
      (Function.update views c₀.ptr
        (if condition then (views c₀.ptr).resize newSize else views c₀.ptr)) c₀ s' := by
  unfold resizeIf at hrun
  cases condition with
  | false =>
    obtain ⟨-, rfl⟩ := Prod.mk.inj hrun
    refine ⟨rfl, ?_⟩
    rwa [if_neg (by decide), Function.update_eq_self]
  | true =>
    have hresize := AppCode.callLib_eq_ok hrun
    unfold LibCall.exec at hresize
    simp only at hresize
    rw [toUInt32_natCast (by omega)] at hresize
    obtain ⟨hmaps, hat⟩ := h.updateChunkSize hlaid (by omega) hresize
    exact ⟨hmaps.currentVersion, hat⟩

end

/-- The sender's part. -/
theorem debit_sees (h : InContext argAppID heap m₀ views s) (hready : Ready heap m₀)
    {sender : LongID} {mem : List Byte}
    (hmem : ∀ c₀ ∈ m₀.chunkInfos, c₀.ptr = accountChunk sender →
      ShowsMemory (heap c₀.ptr) c₀ (views c₀.ptr) mem) {amount : Int64}
    {offset : Nat} (hoffset : offset < 2 ^ 31)
    (hrun : debit heap sender amount offset s = (.ok (.ok ()), s')) :
    ∃ c₀ b₀ v', c₀ ∈ m₀.chunkInfos ∧ c₀.ptr = accountChunk sender ∧
      (offset, b₀) ∈ c₀.accessTable.entries ∧
      b₀.accessType.denies .write = false ∧ offset + argBalanceSize ≤ (views c₀.ptr).size ∧
      offset + argBalanceSize ≤ mem.length ∧ amount.toInt ≤ balanceAt mem offset ∧
      v'.size = (if balanceAt mem offset = amount.toInt then offset else (views c₀.ptr).size) ∧
      ShowsMemory (heap c₀.ptr) c₀ v'
        (writeAt mem offset (leBytes argBalanceSize
          (LibCall.bits 8 (balanceAt mem offset - amount.toInt)))) ∧
      InContext argAppID heap m₀ (Function.update views c₀.ptr v') s' ∧
      s'.heapModifier.currentVersion = s.heapModifier.currentVersion := by
  unfold debit at hrun
  obtain ⟨_, s₁, hload, hrest⟩ := AppCode.bind_eq_ok hrun
  obtain ⟨hversion₁, c₀, hptr, h₁⟩ := loadAccountChunk_sees h hready.laid hload
  obtain ⟨missing, s₂, hinvalid, hpresent⟩ := AppCode.bind_eq_ok hrest
  obtain ⟨h₂, hversion₂, hmissing⟩ := invalid_sees h₁ hready.laid hoffset (by decide) hinvalid
  obtain ⟨_, s₃, hzero, hbody⟩ := AppCode.bind_eq_ok hpresent
  obtain ⟨hfalse, hs₃⟩ := revertIf_ok hzero
  rw [hs₃] at hbody
  obtain ⟨balance, s₄, hbalance, hspend⟩ := AppCode.bind_eq_ok hbody
  obtain ⟨n, s₅, hn, hresult⟩ := ArgC.bind_eq_ok (AppCode.callLib_eq_ok hbalance)
  obtain ⟨hsigned, hs₅⟩ := Prod.mk.inj hresult
  rw [toUInt32_natCast (by omega)] at hn
  obtain ⟨h₅, hmaps₅, b₀, hb₀, hwidth, -, hvalue⟩ := h₂.load hready.laid hn
  have hmem := hmem c₀ h₁.mem hptr
  have hplaced := hready.laid.placed c₀ h₁.mem
  have hfit : offset + b₀.size ≤ (heap c₀.ptr).content.length := hready.fits c₀ h₁.mem _ hb₀
  -- the balance that was loaded is the one of the memory
  have hbalance : balance = balanceAt mem offset := by
    rw [← Except.ok.inj hsigned, hvalue, hmem.bytes hplaced hb₀, readAt_readAt (by omega)]
    rfl
  rw [hbalance, ← hs₅] at hspend
  obtain ⟨_, s₆, henough, htake⟩ := AppCode.bind_eq_ok hspend
  obtain ⟨hle, hs₆⟩ := revertIf_ok henough
  rw [hs₆] at htake
  obtain ⟨_, s₇, hcall, hresize⟩ := AppCode.bind_eq_ok htake
  have hstore := AppCode.callLib_eq_ok hcall
  unfold LibCall.exec at hstore
  simp only at hstore
  rw [toUInt32_natCast (by omega)] at hstore
  obtain ⟨hmaps₇, b₁, hb₁, hwrite, -, h₇⟩ := h₅.store hready.laid hstore
  obtain rfl := hplaced.unique hb₀ hb₁
  obtain ⟨hversion, h₈⟩ := resizeIf_sees h₇ hready.laid hoffset hresize
  rw [Function.update_idem, Function.update_self] at h₈
  have hshows : ShowsMemory (heap c₀.ptr) c₀ _
      (writeAt mem (offset + 0)
        (leBytes argBalanceSize (LibCall.bits 8 (balanceAt mem offset - amount.toInt)))) :=
    hmem.store hplaced hb₀ (Access.not_additive_of_write hwrite)
      (by rw [leBytes_length, Nat.zero_add]; exact hwidth) hfit
  rw [Nat.add_zero] at hshows
  refine ⟨c₀, b₀, _, h₁.mem, hptr, hb₀, hwrite, ?_, ?_, ?_, ?_, ?_, h₈.toInContext, ?_⟩
  · have hvalid : offset + 8 ≤ (views c₀.ptr).size := by simpa [hmissing] using hfalse
    exact hvalid
  · rw [hmem.length]
    exact Nat.le_trans (Nat.add_le_add_left hwidth _) hfit
  · have hnot := of_decide_eq_false hle
    omega
  · by_cases hempty : balanceAt mem offset = amount.toInt
    · rw [if_pos hempty, if_pos (by simp [hempty])]
      rfl
    · rw [if_neg hempty, if_neg (by simpa using fun heq => hempty (by omega))]
      rfl
  · split
    · exact hshows.resize offset
    · exact hshows
  · rw [hversion, hmaps₇.currentVersion, hmaps₅.currentVersion, hversion₂, hversion₁]

/-- The recipient's part. -/
theorem credit_sees (h : InContext argAppID heap m₀ views s) (hready : Ready heap m₀)
    {recipient : LongID} {amount : Int64}
    {offset : Nat} (hoffset : offset < 2 ^ 31 - 8)
    (hrun : credit heap recipient amount offset s = (.ok (.ok ()), s')) :
    ∃ c₀ b₀ v', c₀ ∈ m₀.chunkInfos ∧ c₀.ptr = accountChunk recipient ∧
      (offset, b₀) ∈ c₀.accessTable.entries ∧
      b₀.accessType.denies .int_add = false ∧ b₀.size = argBalanceSize ∧
        v'.size = max (views c₀.ptr).size (offset + argBalanceSize) ∧
      v'.written = ((views c₀.ptr).write offset (leBytes argBalanceSize
        ((((views c₀.ptr).written offset).map leNat).getD 0 +
          LibCall.bits 8 amount.toInt))).written ∧
      InContext argAppID heap m₀ (Function.update views c₀.ptr v') s' ∧
      s'.heapModifier.currentVersion = s.heapModifier.currentVersion := by
  unfold credit at hrun
  obtain ⟨_, s₁, hload, hrun⟩ := AppCode.bind_eq_ok hrun
  obtain ⟨hversion₁, c₀, hptr, h₁⟩ := loadAccountChunk_sees h hready.laid hload
  obtain ⟨missing, s₂, hinvalid, hrun⟩ := AppCode.bind_eq_ok hrun
  obtain ⟨h₂, hversion₂, rfl⟩ := invalid_sees h₁ hready.laid (by omega) (by decide) hinvalid
  obtain ⟨_, s₃, hresize, hrun⟩ := AppCode.bind_eq_ok hrun
  have hresize : resizeIf heap _ ((offset + 8 : Nat) : Int) s₂ = _ := hresize
  obtain ⟨hversion₃, h₃⟩ := resizeIf_sees h₂ hready.laid (by omega) hresize
  have hadd := AppCode.callLib_eq_ok hrun
  unfold LibCall.exec at hadd
  simp only at hadd
  rw [toUInt32_natCast (by omega)] at hadd
  obtain ⟨hmaps, b₀, hb₀, hadditive, hsize, h₄⟩ := h₃.addInt hready.laid hadd
  rw [Function.update_idem, Function.update_self] at h₄
  refine ⟨c₀, b₀, _, h₁.mem, hptr, hb₀, hadditive, hsize, ?_, ?_, h₄.toInContext, ?_⟩
  · -- the chunk is only made larger for a balance that has no place yet
    by_cases hvalid : offset + 8 ≤ (views c₀.ptr).size
    · rw [if_neg (by simpa using hvalid), ChunkView.write_size, argBalanceSize,
        Nat.max_eq_left hvalid]
    · rw [if_pos (by simpa using hvalid), ChunkView.write_size, ChunkView.resize_size,
        Nat.max_eq_right (by unfold argBalanceSize; omega)]
      rfl
  · split <;> rfl
  · rw [hmaps.currentVersion, hversion₃, hversion₂, hversion₁]

/-! ## The transfer -/

/-- A string that was appended. -/
theorem append_ok {maxSize : Nat} {content str result : String}
    (hrun : append maxSize content str s = (.ok (.ok result), s')) :
    result = content ++ str ∧ s' = s := by
  have hlift := AppCode.callLib_eq_ok hrun
  obtain ⟨hresult, hs⟩ := Prod.mk.inj hlift
  refine ⟨?_, hs.symm⟩
  unfold StringBuffer.append at hresult
  obtain ⟨size, -, hsize⟩ := bind_ok.mp hresult
  split at hsize
  · cases hsize
  split at hsize
  · cases hsize
  · exact (Except.ok.inj hsize).symm

theorem transferMessage_ok {recipient : LongID} {amount : Int64} {msg : String}
    (hrun : transferMessage recipient amount s = (.ok (.ok msg), s')) :
    msg = transferText recipient amount ∧ s' = s := by
  unfold transferMessage at hrun
  obtain ⟨msg₁, s₁, happend₁, hrest₁⟩ := AppCode.bind_eq_ok hrun
  obtain ⟨hmsg₁, hs₁⟩ := append_ok happend₁
  obtain ⟨msg₂, s₂, happend₂, hrest₂⟩ := AppCode.bind_eq_ok hrest₁
  obtain ⟨hmsg₂, hs₂⟩ := append_ok happend₂
  obtain ⟨msg₃, s₃, happend₃, hrest₃⟩ := AppCode.bind_eq_ok hrest₂
  obtain ⟨hmsg₃, hs₃⟩ := append_ok happend₃
  obtain ⟨hmsg, hs⟩ := append_ok hrest₃
  rw [hmsg, hmsg₃, hmsg₂, hmsg₁, hs, hs₃, hs₂, hs₁]
  exact ⟨rfl, rfl⟩

/-- The offset of a balance is small. -/
theorem balanceOffset_lt {decisionNonce offset : Nat}
    (h : balanceOffset decisionNonce = some offset) :
    decisionNonceSize ≤ offset ∧ offset < 2 ^ 31 - 8 := by
  unfold balanceOffset at h
  split at h
  · obtain rfl := Option.some.inj h
    decide
  split at h
  · obtain rfl := Option.some.inj h
    decide
  · cases h

/-- A message that `verify_by_acc_once` has accepted. -/
theorem verifyByAccOnce_sees (h : InContext argAppID heap m₀ views s) (hready : Ready heap m₀)
    {issuer : LongID} {msg : String}
    {sigIndex : Int16} {mem : List Byte} {result : Bool × Int} (hresult : (!result.1) = false)
    (hmem : ∀ c₀ ∈ m₀.chunkInfos, c₀.ptr = accountChunk issuer →
      ShowsMemory (heap c₀.ptr) c₀ (views c₀.ptr) mem)
    (hrun : verifyByAccOnce heap issuer msg sigIndex (-1) s = (.ok (.ok result), s')) :
    ∃ c₀ v' mem' offset, c₀ ∈ m₀.chunkInfos ∧ c₀.ptr = accountChunk issuer ∧
      nonce16Size ≤ (views c₀.ptr).size ∧
      result.2 = (offset : Nat) ∧ balanceOffset (decisionNonceOf mem) = some offset ∧
      NonceUsed c₀ heap m₀ views s.sigManager.messages issuer msg sigIndex.toInt mem v' mem' ∧
      InContext argAppID heap m₀ (Function.update views c₀.ptr v') s' ∧
      s'.heapModifier.currentVersion = s.heapModifier.currentVersion := by
  obtain ⟨found, t, hverify, hpair⟩ := ArgC.bind_eq_ok (AppCode.callLib_eq_ok hrun)
  obtain ⟨heq, ht⟩ := Prod.mk.inj hpair
  obtain ⟨valid, offset⟩ := found
  have hresult' : result = (valid, (offset.map Int.ofNat).getD (-1)) := (Except.ok.inj heq).symm
  obtain rfl : valid = true := by simpa [hresult'] using hresult
  obtain ⟨c₀, v', mem', hc₀, hptr, hsize, hsome, hoffset, hused, hcontext, hversion⟩ :=
    verifyByAccount_sees h hready hmem hverify
  obtain ⟨offset, rfl⟩ := Option.isSome_iff_exists.mp hsome
  rw [← ht]
  exact ⟨c₀, v', mem', offset, hc₀, hptr, hsize,
    by rw [hresult']; rfl, hoffset.symm, hused, hcontext, hversion⟩

/-- The chunks of a heap that nothing is stored to. -/
theorem initial_sees (account : LongID) : ∀ c₀ ∈ m₀.chunkInfos, c₀.ptr = accountChunk account →
    ShowsMemory (heap c₀.ptr) c₀ (.initial (heap c₀.ptr))
      (heap (accountChunk account)).content := by
  intro c₀ _ hptr
  rw [hptr]
  exact .initial _ _

/-- The sender is verified and debited. -/
theorem spend_sees (h : InContext argAppID heap m₀ (fun id => .initial (heap id)) s)
    (hready : Ready heap m₀) {t : Session} {sender : LongID}
    {msg : String} {amount : Int64} {sigIndex : Int16} {verified : Bool × Int}
    (hverify : verifyByAccOnce heap sender msg sigIndex (-1) s = (.ok (.ok verified), t))
    (hverified : (!verified.1) = false)
    (hdebit : debit heap sender amount verified.2 t = (.ok (.ok ()), s')) :
    ∃ c₀ b₀ v offset mem, c₀ ∈ m₀.chunkInfos ∧ c₀.ptr = accountChunk sender ∧
      (offset, b₀) ∈ c₀.accessTable.entries ∧
      b₀.accessType.denies .write = false ∧ balanceOffset (decisionNonceOf mem) = some offset ∧
      ShowsMemory (heap c₀.ptr) c₀ v mem ∧
        (∀ chunk', WrittenBack (heap c₀.ptr) c₀ v chunk' → ∃ mem',
          Debited s.sigManager.messages sender msg sigIndex.toInt amount.toInt offset mem'
            (heap c₀.ptr) chunk') ∧
      InContext argAppID heap m₀ (Function.update (fun id => .initial (heap id)) c₀.ptr v) s' ∧
      s'.heapModifier.currentVersion = s.heapModifier.currentVersion := by
  obtain ⟨c₀, v₁, mem, offset, hc₀, hptr, hsize, hoffset, hplace, hused, hcontext, hversion⟩ :=
    verifyByAccOnce_sees h hready hverified (initial_sees sender) hverify
  have hbound := balanceOffset_lt hplace
  rw [hoffset] at hdebit
  obtain ⟨c₁, b₀, v, hc₁, hptr₁, hb₀, hwritable, hpresent, hlong, henough, hsized, hshows,
    hcontext', hversion'⟩ :=
    debit_sees hcontext hready (fun c hc hcptr => by
      obtain rfl := hready.laid.unique hc hc₀ (hcptr.trans hptr.symm)
      rw [Function.update_self]
      exact hused.shows) (by omega) hdebit
  -- the chunk that is debited is the one that was verified
  obtain rfl := hready.laid.unique hc₁ hc₀ (hptr₁.trans hptr.symm)
  rw [Function.update_idem] at hcontext'
  rw [Function.update_self, hused.size] at hpresent hsized
  refine ⟨c₁, b₀, v, offset, _, hc₁, hptr, hb₀, hwritable, ?_, hshows,
    fun chunk' hback => ⟨mem, ?_⟩, hcontext', hversion'.trans hversion⟩
  · rw [decisionNonceOf_writeAt hbound.1]
    rw [hused.use.step.balanceOffset_eq, hplace]
  · refine ⟨by rw [hptr]; exact hplace, ?_, hpresent, henough, ?_, hback.length,
      hshows.persists hback, hback.zeroTail⟩
    · rw [hptr]
      exact hused.use
    · rw [hback.chunkSize, hsized]
      rfl

/-- The recipient is found and credited. The block of the balance is additive. -/
theorem receive_sees (h : InContext argAppID heap m₀ views s) (hready : Ready heap m₀) {t : Session}
    {recipient : LongID} {amount : Int64}
    {sigIndex : Int16} {found : Bool × Int} {mem : List Byte}
    (hmem : ∀ c₀ ∈ m₀.chunkInfos, c₀.ptr = accountChunk recipient →
      ShowsMemory (heap c₀.ptr) c₀ (views c₀.ptr) mem)
    (hfind : verifyByAccOnce heap recipient "" sigIndex (-1) s = (.ok (.ok found), t))
    (hfound : (!found.1) = false)
    (hcredit : credit heap recipient amount found.2 t = (.ok (.ok ()), s')) :
    ∃ c₀ b₀ v offset, c₀ ∈ m₀.chunkInfos ∧ c₀.ptr = accountChunk recipient ∧
      (offset, b₀) ∈ c₀.accessTable.entries ∧
      b₀.accessType.denies .int_add = false ∧ balanceOffset (decisionNonceOf mem) = some offset ∧
      (views c₀.ptr = .initial (heap c₀.ptr) → mem = (heap c₀.ptr).content →
        ∀ chunk', WrittenBack (heap c₀.ptr) c₀ v chunk' →
          Credited amount.toInt offset (heap c₀.ptr) chunk') ∧
      InContext argAppID heap m₀ (Function.update views c₀.ptr v) s' ∧
      s'.heapModifier.currentVersion = s.heapModifier.currentVersion := by
  obtain ⟨c₀, v₁, mem', offset, hc₀, hptr, hsize, hoffset, hplace, hused, hcontext, hversion⟩ :=
    verifyByAccOnce_sees h hready hfound hmem hfind
  have hbound := balanceOffset_lt hplace
  -- the message is empty, so no nonce of the recipient is consumed
  obtain rfl := hused.untouched rfl
  rw [Function.update_eq_self] at hcontext
  rw [hoffset] at hcredit
  obtain ⟨c₁, b₀, v, hc₁, hptr₁, hb₀, hadditive, hwidth, hsized, hwritten, hcontext', hversion'⟩ :=
    credit_sees hcontext hready hbound.2 hcredit
  obtain rfl := hready.laid.unique hc₁ hc₀ (hptr₁.trans hptr.symm)
  refine ⟨c₁, b₀, v, offset, hc₁, hptr, hb₀, hadditive, hplace, fun hview hcontent chunk' hback =>
    ?_, hcontext', hversion'.trans hversion⟩
  have hfit : offset + b₀.size ≤ (heap c₁.ptr).content.length := hready.fits c₁ hc₁ _ hb₀
  have hfirst : (((ChunkView.initial (heap c₁.ptr)).written offset).map leNat).getD 0 +
    LibCall.bits 8 amount.toInt =
      LibCall.bits 8 amount.toInt := Nat.zero_add _
  rw [hview] at hsize hsized hwritten
  rw [hfirst] at hwritten
  have hadded := hback.added (hready.laid.placed c₁ hc₁) hb₀
    (Access.additive_of_int_add hadditive).1 hwidth
    (by rwa [hwidth] at hfit) hwritten (by rw [hsized]; exact Nat.le_max_left _ _)
  refine ⟨by rw [← hcontent]; exact hplace, hsize, ?_, hback.length, fun i hi => ?_, hback.zeroTail⟩
  · rw [hback.chunkSize, hsized]
    rfl
  · rw [hback.chunkSize] at hi
    rw [hadded i, if_pos hi, Nat.mod_eq_of_lt (LibCall.bits_lt 8 amount.toInt)]

/-- **What a transfer has done when its session is written back.** -/
theorem transfer_transferred (h : InContext argAppID heap m₀ (fun id => .initial (heap id)) s)
    (hready : Ready heap m₀)
    (hversion : s.heapModifier.currentVersion ≠ 0) {sender recipient : LongID} {amount : Int64}
    {sigIndex : Int16} {heap' : Heap}
    (hrun : transfer heap sender recipient amount sigIndex s = (.ok (.ok ()), s'))
    (hwrite : s'.heapModifier.writeToHeap heap = .ok heap') :
    Transferred heap heap' s.sigManager.messages sender recipient amount sigIndex := by
  unfold transfer at hrun
  obtain ⟨_, s₁, hnegative, hrest₁⟩ := AppCode.bind_eq_ok hrun
  obtain ⟨hnonnegative, hs₁⟩ := revertIf_ok hnegative
  rw [hs₁] at hrest₁
  obtain ⟨msg, s₂, hmessage, hrest₂⟩ := AppCode.bind_eq_ok hrest₁
  obtain ⟨hmsg, hs₂⟩ := transferMessage_ok hmessage
  rw [hmsg, hs₂] at hrest₂
  obtain ⟨verified, s₃, hverify, hrest₃⟩ := AppCode.bind_eq_ok hrest₂
  obtain ⟨_, s₄, hvalid, hrest₄⟩ := AppCode.bind_eq_ok hrest₃
  obtain ⟨hverified, hs₄⟩ := revertIf_ok hvalid
  rw [hs₄] at hrest₄
  obtain ⟨_, s₅, hdebit, hrest₅⟩ := AppCode.bind_eq_ok hrest₄
  obtain ⟨found, s₆, hfind, hrest₆⟩ := AppCode.bind_eq_ok hrest₅
  obtain ⟨_, s₇, hexists, hcredit⟩ := AppCode.bind_eq_ok hrest₆
  obtain ⟨hfound, hs₇⟩ := revertIf_ok hexists
  rw [hs₇] at hcredit
  obtain ⟨c, b, v, offset, mem, hc, hptr, hb, hwritable, hplace, hshows, hdebited, h₅, hversion₅⟩ :=
    spend_sees h hready hverify hverified hdebit
  have hdistinct : sender ≠ recipient := by
    rintro rfl
    -- the balance would be in one block, which the debit stores to and the credit adds to
    obtain ⟨c', b', _, offset', hc', hptr', hb', hadditive, hplace', -⟩ :=
      receive_sees h₅ hready (fun d hd hdptr => by
        obtain rfl := hready.laid.unique hd hc (hdptr.trans hptr.symm)
        rw [Function.update_self]
        exact hshows) hfind hfound hcredit
    obtain rfl := hready.laid.unique hc' hc (hptr'.trans hptr.symm)
    obtain rfl := Option.some.inj (hplace'.symm.trans hplace)
    obtain rfl := (hready.laid.placed c' hc').unique hb hb'
    rw [(Access.additive_of_int_add hadditive).2] at hwritable
    cases hwritable
  have hne {d : ChunkInfo AccessBlock} (hdptr : d.ptr = accountChunk recipient) : d.ptr ≠
      c.ptr := fun heq =>
    hdistinct (accountChunk_injective (hptr.symm.trans (heq.symm.trans hdptr)))
  obtain ⟨d, _, w, offset', hd, hdptr, -, -, -, hcredited, h₇, hversion₇⟩ :=
    receive_sees h₅ hready (fun d hd hdptr => by
      rw [Function.update_of_ne (hne hdptr)]
      exact initial_sees recipient d hd hdptr) hfind hfound hcredit
  obtain ⟨hin, hout⟩ :=
    h₇.sees.writeToHeap hready (by rw [hversion₇, hversion₅]; exact hversion) hwrite
  refine ⟨hdistinct, ?_, ?_, ?_, fun id hsender hrecipient => ?_⟩
  · have hle := of_decide_eq_false hnonnegative
    omega
  · have hback := hin c hc
    rw [Function.update_of_ne (hne hdptr).symm, Function.update_self] at hback
    obtain ⟨mem', hdebited⟩ := hdebited _ hback
    rw [hptr] at hdebited
    exact ⟨offset, mem', hdebited⟩
  · have hback := hin d hd
    rw [Function.update_self] at hback
    have hcredited := hcredited (Function.update_of_ne (hne hdptr) _ _) (by rw [hdptr]) _ hback
    rw [hdptr] at hcredited
    exact ⟨offset', hcredited⟩
  · by_cases hmem : id ∈ m₀.chunkInfos.map ChunkInfo.ptr
    · -- a chunk that the modifier has, but that is not touched
      obtain ⟨e, he, rfl⟩ := List.mem_map.mp hmem
      have hback := hin e he
      rw [Function.update_of_ne (by rwa [hdptr]), Function.update_of_ne (by rwa [hptr])] at hback
      exact hback.unchanged
    · exact hout id hmem

end ArgApp
end Argennon