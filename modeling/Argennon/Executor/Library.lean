import Argennon.Executor.Session

/- The ArgC library (`argc/functions.h`): what an application can call.

   A function gets the session and returns its result with the session it leaves, also
   when it throws. The heap is the one that the request found; it does not change
   before the write-back. Functions that do not touch the session and do not throw
   (`truncate_float64`, `buf_to_string`, `clear_buffer`, `validate_pk`) are not listed,
   and of the numbers that text functions compute only the way they fail is kept. -/
namespace Argennon

/-- A function of the library. -/
abbrev ArgC := ExceptT Exn (StateM Session)

/-- `arg_app_id_g` -/
def argAppID : LongID := 0x100000000000000

/-- `nonce_chunk_local_id_g` -/
def nonceChunkLocalID : LongID := 0

/-- `nonce16_size_g` -/
def nonce16Size : Nat := 2

/-- `decision_nonce_size_g` -/
def decisionNonceSize : Nat := 2

/-- `arg_balance_size_g` -/
def argBalanceSize : Nat := 8

/-- `public_key_size_k` -/
def publicKeySize : Nat := 65

/-- `min_nonce_g` -/
def minNonce : Nat := 8

/-- `nonce16_max` -/
def nonce16Max : Nat := 2 ^ 16 - 1

/-- The size of `message_c` -/
def messageSize : Nat := 2 * 1024

/-- `first_valid_acc` -/
def firstValidAcc : LongID := 0x400000000000000

namespace ArgC

/-- `throw Executor::Error(message, code)` -/
def raise {α : Type} (message : String) (code : StatusCode) : ArgC α := fun s =>
  (.error (.executorError message code s.currentCall.appID), s)

/-- A function that only computes. -/
def liftExcept {α : Type} (r : Except Exn α) : ArgC α := fun s => (r, s)

/-- An operation of the heap modifier. -/
def heapOp (heap : Heap) (op : Op) : ArgC Value := fun s =>
  let (r, heapModifier) := s.heapModifier.exec heap op
  (r, { s with heapModifier })

/-! ## Heap access -/

/-- `load<T>(offset)`, `n` being the size of `T`. -/
def load (heap : Heap) (n offset : Nat) : ArgC Nat := do
  match ← heapOp heap (.access (.load offset 0 n)) with
  | .bytes content => pure (leNat content)
  | _ => throw .undefined

/-- `store<T>(offset, value)`, `n` being the size of `T`. -/
def store (heap : Heap) (n offset value : Nat) : ArgC Unit := do
  let _ ← heapOp heap (.access (.store offset 0 (leBytes n value)))

/-- `isValid(offset, size)` -/
def isValid (heap : Heap) (offset size : Nat) : ArgC Bool := do
  match ← heapOp heap (.access (.isValid offset size)) with
  | .bool b => pure b
  | _ => throw .undefined

/-- `loadChunk(accountID, localID)` -/
def loadChunk (heap : Heap) (accountID localID : LongID) : ArgC Unit := do
  let _ ← heapOp heap (.loadChunk accountID localID)

/-- The size of the block at an offset of the current chunk. -/
def blockSize (offset : Nat) : ArgC Nat := fun s =>
  match s.heapModifier.currentChunk with
  | none => (.error (.outOfRange "chunk is not loaded"), s)
  | some p =>
    match s.heapModifier.appsAccessMaps.get p with
    | none => (.error .undefined, s)
    | some c => ((c.getAccessBlock offset).map fun kb => kb.2.size, s)

/-- The loop of `readPrefixCode` for `app_trie_g`, over what is left of the bytes and of
the boundaries. -/
def prefixCodeLoop : Nat → Nat → List Byte → List Nat → Except Exn Nat
  | i, id, b :: bytes, boundary :: rest =>
    let id := id + b.toNat * 2 ^ (8 * (7 - i))
    if id < boundary then .ok id else prefixCodeLoop (i + 1) id bytes rest
  | _, _, _, _ => .error (.outOfRange "readPrefixCode: invalid identifier")

/-- `loadIdentifier(app_trie_g, offset, 0)`: reads the whole block. -/
def loadIdentifier (heap : Heap) (offset : Nat) : ArgC Nat := do
  let size ← blockSize offset
  match ← heapOp heap (.access (.load offset 0 size)) with
  | .bytes content => liftExcept (prefixCodeLoop 0 0 content appTrieBoundary)
  | _ => throw .undefined

/-- `load_account_chunk` -/
def loadAccountChunk (heap : Heap) (accID localID : LongID) : ArgC Unit :=
  if accID < firstValidAcc then raise "invalid account id" .bad_request
  else loadChunk heap accID localID

/-! ## Entrance locks -/

end ArgC

/-- The record of the session that the current application is locked. -/
def Session.setLocked (s : Session) (locked : Bool) : Session :=
  { s with isLocked := Function.update s.isLocked s.currentCall.appID locked }

/-- The record of the current context that it has the lock. -/
def Session.setHasLock (s : Session) (hasLock : Bool) : Session :=
  { s with currentCall := { s.currentCall with hasLock } }

namespace Session
variable (s : Session) (b : Bool)

@[simp] theorem setLocked_isLocked :
    (s.setLocked b).isLocked = Function.update s.isLocked s.currentCall.appID b := rfl

@[simp] theorem setLocked_currentCall : (s.setLocked b).currentCall = s.currentCall := rfl

@[simp] theorem setHasLock_isLocked : (s.setHasLock b).isLocked = s.isLocked := rfl

@[simp] theorem setHasLock_appID : (s.setHasLock b).currentCall.appID = s.currentCall.appID := rfl

@[simp] theorem setHasLock_hasLock : (s.setHasLock b).currentCall.hasLock = b := rfl

end Session

namespace ArgC

/-- `enter_area`, when nothing comes between the two assignments. -/
def enterArea : ArgC Unit := fun s =>
  if s.currentCall.hasLock then (.ok (), s)
  else if s.isLocked s.currentCall.appID then
    (.error (.executorError "reentrancy is not allowed" .reentrancy_attempt s.currentCall.appID), s)
  else (.ok (), (s.setLocked true).setHasLock true)

/-- `exit_area`, when nothing comes between the two assignments. -/
def exitArea (s : Session) : Session :=
  if s.currentCall.hasLock then (s.setLocked false).setHasLock false else s

/-! ## Numbers and strings -/

/-- `extractExp`, of the bits of a float. -/
def extractExp (f : Nat) : Nat := f / 2 ^ 52 % 2 ^ 11

/-- The bits of the number with the smaller exponent that its addition loses are too
many: more than `maxLoss` in units of the last place. -/
def lossTooLarge (a b maxLoss : Nat) : Bool :=
  if extractExp b < extractExp a then
    51 < extractExp a - extractExp b || maxLoss < b % 2 ^ (extractExp a - extractExp b)
  else if extractExp a < extractExp b then
    51 < extractExp b - extractExp a || maxLoss < a % 2 ^ (extractExp b - extractExp a)
  else false

/-- `safeAdd64` -/
def safeAdd64 (a b maxLoss : Nat) : Except Exn Unit :=
  if lossTooLarge a b maxLoss then .error (.underflowError "safeAdd64: precision loss is too large")
  else .ok ()

/-- `MAX_ADDITION_LOSS` -/
def maxAdditionLoss : Nat := 0x100000

/-- How `matchPattern` ends: it finds the text between the patterns, misses one of them,
or the parser of the text throws. -/
inductive PatternMatch where
  | found | noStart | noEnd | parseError (what : String)
  deriving DecidableEq

/-- `argc_p_scan`: every exception becomes an `Executor::Error`. -/
def pScan (start stop : String) : PatternMatch → ArgC Unit
  | .found => pure ()
  | .noStart => raise ("start pattern:" ++ start ++ " not found") .bad_request
  | .noEnd => raise ("end pattern:" ++ stop ++ " not found") .bad_request
  | .parseError what => raise what .bad_request

/-! ## Signatures -/

/-- The body in the context of the ARG application (`Context`), which is left also by an
exception; it gets the caller. -/
def withArgContext {α : Type} (body : LongID → ArgC α) : ArgC α := fun s =>
  let caller := s.currentCall.appID
  let (r, s) := body caller { s with heapModifier := s.heapModifier.loadContext argAppID }
  (r, { s with heapModifier := s.heapModifier.loadContext caller })

/-- `sigManager.verify` -/
def verify (msg : String) (issuer : LongID) (sigIndex : Int) : ArgC Bool := fun s =>
  (.ok (s.sigManager.verify msg issuer sigIndex), s)

/-- `sigManager.verifyAndInvalidate` -/
def verifyAndInvalidate (msg : String) (issuer : LongID) (sigIndex : Int) : ArgC Bool := fun s =>
  let (valid, sigManager) := s.sigManager.verifyAndInvalidate msg issuer sigIndex
  (.ok valid, { s with sigManager })

/-- `appendNonceToMsg` -/
def appendNonceToMsg (msg : String) (spender : LongID) (nonce : Nat) : Except Exn String :=
  StringBuffer.appendAll messageSize msg
    [",\"forApp\":", LongID.toString spender, ",\"nonce\":", toString nonce, "\x7d"]

/-- `appendSpenderToMsg` -/
def appendSpenderToMsg (msg : String) (spender : LongID) : Except Exn String :=
  StringBuffer.appendAll messageSize msg [",\"forApp\":", LongID.toString spender, "\x7d"]

/-- Where the nonce of a message is: at the start of a normal account, in one of the
slots after the balance of the others. -/
def nonceIndex (nonceCount balanceIndex length : Nat) : Nat :=
  if nonceCount > 1 then balanceIndex + argBalanceSize + length % nonceCount * nonce16Size else 0

/-- The balance of an account that is not owned by an application. -/
def keyBalanceIndex : Nat := decisionNonceSize + publicKeySize

/-- The rest of `verifyWithMultiwayNonce`, for the nonce that was loaded. -/
def consumeNonce (heap : Heap) (index nonce : Nat) (issuer spender : LongID) (msg : String)
    (sigIndex : Int) : ArgC Bool :=
  if nonce ≥ nonce16Max then pure false
  else do
    let msg ← liftExcept (appendNonceToMsg msg spender nonce)
    let valid ← verify msg issuer sigIndex
    if valid then store heap nonce16Size index (nonce + 1)
    pure valid

/-- `verifyWithMultiwayNonce`; the balance index is `keyBalanceIndex`. -/
def verifyWithMultiwayNonce (heap : Heap) (nonceCount : Nat) (issuer spender : LongID)
    (msg : String) (sigIndex : Int)
    (invalidate : Bool) : ArgC Bool :=
  if msg.utf8ByteSize = 0 then pure true
  else if !invalidate then verify msg issuer sigIndex
  else do
    let index := nonceIndex nonceCount keyBalanceIndex msg.utf8ByteSize
    let nonce ← load heap nonce16Size index
    consumeNonce heap index nonce issuer spender msg sigIndex

/-- `verifyByApp` -/
def verifyByApp (issuer spender : LongID) (msg : String) (sigIndex : Int) (invalidateMsg : Bool) :
    ArgC Bool :=
  if msg.utf8ByteSize = 0 then pure true
  else if !invalidateMsg then verify msg issuer sigIndex
  else do
    let msg ← liftExcept (appendSpenderToMsg msg spender)
    verifyAndInvalidate msg issuer sigIndex

/-- The rest of `verifyByAccount`, by the kind of the account. The balance index is
given only where it is set. -/
def verifyByKind (heap : Heap) (decisionNonce : Nat) (issuerAccount spender : LongID) (msg : String)
    (sigIndex : Int)
    (invalidateMsg : Bool) : ArgC (Bool × Option Nat) :=
  if decisionNonce = 0 then do
    let valid ← verifyByApp issuerAccount spender msg sigIndex invalidateMsg
    pure (valid, some decisionNonceSize)
  else if decisionNonce = 1 then do
    let valid ← verifyWithMultiwayNonce heap 5 issuerAccount spender msg sigIndex invalidateMsg
    pure (valid, some keyBalanceIndex)
  else if decisionNonce = 2 then do
    let valid ← verifyWithMultiwayNonce heap 11 issuerAccount spender msg sigIndex invalidateMsg
    pure (valid, some keyBalanceIndex)
  else if decisionNonce ≥ minNonce then do
    let valid ← verifyWithMultiwayNonce heap 1 issuerAccount spender msg sigIndex invalidateMsg
    pure (valid, some keyBalanceIndex)
  else pure (false, none)

/-- `verifyByAccount` -/
def verifyByAccount (heap : Heap) (issuerAccount : LongID) (msg : String) (sigIndex : Int)
    (invalidateMsg : Bool) :
    ArgC (Bool × Option Nat) :=
  withArgContext fun spender => do
    loadChunk heap issuerAccount nonceChunkLocalID
    if ← isValid heap 0 nonce16Size then
      let decisionNonce ← load heap nonce16Size 0
      verifyByKind heap decisionNonce issuerAccount spender msg sigIndex invalidateMsg
    else pure (false, none)

/-- `sigManager.sign` -/
def sign (msg : String) (issuer : LongID) : ArgC Nat := fun s =>
  let (r, sigManager) := s.sigManager.sign msg issuer
  (r, { s with sigManager })

/-- The text of an error of `virtual_sign`. -/
def virtualSignError (msg : String) : String := "[virtual_sign]-> " ++ msg

/-- The checks of `virtual_sign`: the account is valid and owned by the signer. -/
def checkOwner (heap : Heap) (signer issuerAccount : LongID) : ArgC Unit := do
  loadChunk heap issuerAccount nonceChunkLocalID
  if ← isValid heap 0 nonce16Size then
    let decisionNonce ← load heap nonce16Size 0
    if decisionNonce ≠ 0 then
      raise (virtualSignError (LongID.toString issuerAccount ++ " does not belong to an app"))
        .internal_error
    else
      let owner ← loadIdentifier heap (decisionNonceSize + argBalanceSize)
      if signer.val ≠ owner then
        raise (virtualSignError
          (toHex owner ++ " is not owner of:" ++ LongID.toString issuerAccount)) .internal_error
  else raise (virtualSignError (LongID.toString issuerAccount ++ " is not valid")) .internal_error

/-- `virtual_sign` -/
def virtualSign (heap : Heap) (issuerAccount : LongID) (msg : String) : ArgC Unit :=
  withArgContext fun signer => do
    checkOwner heap signer issuerAccount
    let _ ← sign msg issuerAccount

end ArgC

/-! ## Calls -/

/-- A call of the library with its arguments. Offsets, sizes and values of integers are
those of the language, of 32 and 64 bits. -/
inductive LibCall where
  | load_int64 (offset : Int)
  | store_int64 (offset value : Int)
  | store_int16 (offset value : Int)
  | store_pk (offset index : Int) (value : List Byte)
  | add_int64_to (offset amount : Int)
  | resize_chunk (newSize : Int)
  | get_chunk_size
  | invalid (offset size : Int)
  | load_local_chunk (id : LongID)
  | load_account_chunk (accID localID : LongID)
  | enter_area
  | exit_area
  /-- `append_str`, `append_long_id`, `append_int64`, `append_float64` -/
  | append (maxSize : Nat) (content str : String)
  /-- `p_scan_sig`, `p_scan_pk`, `p_scan_int64`, `p_scan_int16`, `p_scan_long_id`, `p_scan_str` -/
  | p_scan (start stop : String) (outcome : ArgC.PatternMatch)
  /-- The number that is found may be out of range. -/
  | scan_int64 (inRange : Bool)
  | scan_float64 (inRange : Bool)
  | safe_addf64 (a b : Nat)
  | exact_addf64 (a b : Nat)
  | revert (msg : String)
  | verify_by_acc_once (issuerAccount : LongID) (msg : String) (sigIndex : Int)
  | verify_by_acc (issuerAccount : LongID) (msg : String) (sigIndex : Int)
  | virtual_sign (issuerAccount : LongID) (msg : String)

namespace LibCall

/-- The two's complement of an integer of `n` bytes. -/
def bits (n : Nat) (value : Int) : Nat := (value % 256 ^ n).toNat

/-- The call, its value discarded. -/
def exec (heap : Heap) : LibCall → ArgC Unit
  | load_int64 offset => discard (ArgC.load heap 8 (toUInt32 offset))
  | store_int64 offset value => ArgC.store heap 8 (toUInt32 offset) (bits 8 value)
  | store_int16 offset value => ArgC.store heap 2 (toUInt32 offset) (bits 2 value)
  | store_pk offset index value =>
    discard (ArgC.heapOp heap (.access (.store (toUInt32 offset) (toUInt32 index) value)))
  | add_int64_to offset amount =>
    discard (ArgC.heapOp heap (.access (.addInt (toUInt32 offset) 8 (bits 8 amount))))
  | resize_chunk newSize =>
    discard (ArgC.heapOp heap (.access (.updateChunkSize (toUInt32 newSize))))
  | get_chunk_size => discard (ArgC.heapOp heap (.access .getChunkSize))
  | invalid offset size => discard (ArgC.isValid heap (toUInt32 offset) (toUInt32 size))
  | load_local_chunk id => ArgC.loadChunk heap 0 id
  | load_account_chunk accID localID => ArgC.loadAccountChunk heap accID localID
  | enter_area => ArgC.enterArea
  | exit_area => fun s => (.ok (), ArgC.exitArea s)
  | append maxSize content str =>
    discard (ArgC.liftExcept (StringBuffer.append maxSize content str))
  | p_scan start stop outcome => ArgC.pScan start stop outcome
  | scan_int64 inRange => ArgC.liftExcept (if inRange then .ok () else .error (.outOfRange "stoll"))
  | scan_float64 inRange =>
    ArgC.liftExcept (if inRange then .ok () else .error (.outOfRange "stod"))
  | safe_addf64 a b => ArgC.liftExcept (ArgC.safeAdd64 a b ArgC.maxAdditionLoss)
  | exact_addf64 a b => ArgC.liftExcept (ArgC.safeAdd64 a b 0)
  | revert msg => ArgC.raise msg .bad_request
  | verify_by_acc_once issuerAccount msg sigIndex =>
    discard (ArgC.verifyByAccount heap issuerAccount msg sigIndex true)
  | verify_by_acc issuerAccount msg sigIndex =>
    discard (ArgC.verifyByAccount heap issuerAccount msg sigIndex false)
  | virtual_sign issuerAccount msg => ArgC.virtualSign heap issuerAccount msg

/-- The calls that run in a guarded area, where a signal ends the process. -/
def guarded : LibCall → Bool
  | load_int64 _ | store_int64 _ _ | store_int16 _ _ | store_pk _ _ _ | add_int64_to
    _ _ | resize_chunk _
  | get_chunk_size | invalid _ _ | enter_area | exit_area | revert _ | verify_by_acc_once
    _ _ _ | virtual_sign _ _ => true
  | _ => false

end LibCall
end Argennon
