import Argennon.Executor.RunProgram

/- The ARG application (`apps/app0x100000000000000.argc`): the accounts, their balances and the
   transfers between them.

   The text of a request is what the scanners find in it. A call of the library that has no value is
   the one of `LibCall`; the others return what they read. -/
namespace Argennon

/-- The value of the two's complement of an `int64`. -/
def signed64 (n : Nat) : Int := if n < 2 ^ 63 then n else n - 2 ^ 64

/-- A call of the library without a value. -/
def AppCode.call (heap : Heap) (call : LibCall) : AppCode Unit :=
  callLib call.guarded (call.exec heap)

namespace ArgApp

/-! ## The library, as the application calls it -/

/-- How a scanner ends, and what it has found. -/
structure Scan (α : Type) where
  outcome : ArgC.PatternMatch
  value : α

/-- `p_scan_str`, `p_scan_long_id`, `p_scan_int64`, `p_scan_pk`, `p_scan_sig` -/
def pScan {α : Type} (start stop : String) (scan : Scan α) : AppCode α := callLib false do
  ArgC.pScan start stop scan.outcome
  pure scan.value

/-- `p_scan_int16`: the number is cast. -/
def pScanInt16 (start stop : String) (scan : Scan Int64) : AppCode Int16 := callLib false do
  ArgC.pScan start stop scan.outcome
  pure scan.value.toInt16

/-- `append_str`, `append_long_id`, `append_int64` -/
def append (maxSize : Nat) (content str : String) : AppCode String :=
  callLib false (ArgC.liftExcept (StringBuffer.append maxSize content str))

/-- `load_int64` -/
def loadInt64 (heap : Heap) (offset : Int) : AppCode Int := callLib true do
  let n ← ArgC.load heap 8 (toUInt32 offset)
  pure (signed64 n)

/-- `invalid` -/
def invalid (heap : Heap) (offset size : Int) : AppCode Bool := callLib true do
  let valid ← ArgC.isValid heap (toUInt32 offset) (toUInt32 size)
  pure (!valid)

/-- `if (condition) revert(msg)` -/
def revertIf (heap : Heap) (condition : Bool) (msg : String) : AppCode Unit :=
  if condition then AppCode.call heap (.revert msg) else pure ()

/-- `if (condition) resize_chunk(newSize)` -/
def resizeIf (heap : Heap) (condition : Bool) (newSize : Int) : AppCode Unit :=
  if condition then AppCode.call heap (.resize_chunk newSize) else pure ()

/-- `verify_by_acc_once`: the balance offset keeps its value where it is not set. -/
def verifyByAccOnce (heap : Heap) (issuerAccount : LongID) (msg : String) (sigIndex : Int16)
    (balanceOffset : Int) :
    AppCode (Bool × Int) := callLib true do
  let result ← ArgC.verifyByAccount heap issuerAccount msg sigIndex.toInt true
  pure (result.1, (result.2.map Int.ofNat).getD balanceOffset)

/-! ## The application -/

/-- `publickey_c` -/
abbrev PublicKey := { bytes : List Byte // bytes.length = publicKeySize }

/-- `create_normal_account`. `validate_pk` accepts every proof. -/
def createNormalAccount (heap : Heap) (address : LongID) (pk : PublicKey) : AppCode Bool := do
  AppCode.call heap (.load_account_chunk address 0)
  let isInvalid ← invalid heap 0 2
  if isInvalid then do
    AppCode.call heap (.resize_chunk (2 + publicKeySize))
    AppCode.call heap (.store_int16 0 8)
    AppCode.call heap (.store_pk 0 2 pk.val)
    pure true
  else pure false

/-- The message that the sender of a transfer has signed, without its end. -/
def transferMessage (recipient : LongID) (amount : Int64) : AppCode String := do
  let msg ← append messageSize "" "\x7b\"to\":"
  let msg ← append messageSize msg (LongID.toString recipient)
  let msg ← append messageSize msg ",\"amount\":"
  append messageSize msg (toString amount.toInt)

/-- The part of `transfer` that takes the amount from the sender. -/
def debit (heap : Heap) (sender : LongID) (amount : Int64) (senderBalanceOffset : Int) :
    AppCode Unit := do
  AppCode.call heap (.load_account_chunk sender 0)
  let missing ← invalid heap senderBalanceOffset 8
  revertIf heap missing "zero balance"
  let balance ← loadInt64 heap senderBalanceOffset
  revertIf heap (balance < amount.toInt) "not enough balance"
  AppCode.call heap (.store_int64 senderBalanceOffset (balance - amount.toInt))
  resizeIf heap (balance - amount.toInt = 0) senderBalanceOffset

/-- The part of `transfer` that gives the amount to the recipient. -/
def credit (heap : Heap) (recipient : LongID) (amount : Int64) (recipientOffset : Int) :
    AppCode Unit := do
  AppCode.call heap (.load_account_chunk recipient 0)
  let missing ← invalid heap recipientOffset 8
  resizeIf heap missing (recipientOffset + 8)
  AppCode.call heap (.add_int64_to recipientOffset amount.toInt)

/-- `transfer`, its accounts `from` and `to` being the sender and the recipient. -/
def transfer (heap : Heap) (sender recipient : LongID) (amount : Int64) (sigIndex : Int16) :
    AppCode Unit := do
  revertIf heap (amount.toInt < 0) "negative amount"
  let msg ← transferMessage recipient amount
  let verified ← verifyByAccOnce heap sender msg sigIndex (-1)
  revertIf heap (!verified.1) "invalid address or signature"
  debit heap sender amount verified.2
  let found ← verifyByAccOnce heap recipient "" sigIndex (-1)
  revertIf heap (!found.1) "invalid recipient account"
  credit heap recipient amount found.2

/-- What the scanners find in the text of a request. -/
structure RequestText where
  method : Scan String
  account : Scan LongID
  recipient : Scan LongID
  amount : Scan Int64
  sigIndex : Scan Int64
  pk : Scan PublicKey
  proof : Scan Unit

/-- The branch of the dispatcher for `PATCH`. -/
def patch (heap : Heap) (request : RequestText) : AppCode Int := do
  let account ← pScan "/balances/" "/" request.account
  let recipient ← pScan "\x7b\"to\":" "," request.recipient
  let amount ← pScan "\"amount\":" "," request.amount
  let sigIndex ← pScanInt16 "\"sig\":" "\x7d" request.sigIndex
  transfer heap account recipient amount sigIndex
  let _ ← append responseBufferSize "" "success and a good response!"
  pure 200

/-- The branch of the dispatcher for `PUT`. -/
def put (heap : Heap) (request : RequestText) : AppCode Int := do
  let address ← pScan "/balances/" "/" request.account
  let pk ← pScan "\x7b\"pk\":\"" "\"" request.pk
  let _ ← pScan "\"sig\":\"" "\"" request.proof
  let created ← createNormalAccount heap address pk
  pure (if created then 200 else 300)

/-- `dispatcher` -/
def dispatcher (heap : Heap) (request : RequestText) : AppCode Int := do
  let method ← pScan "" " " request.method
  if method = "PATCH" then patch heap request
  else if method = "PUT" then put heap request
  else pure 200

/-! ## The application goes on with what the library returns -/

open AppCode

theorem call_ofLibrary (call : LibCall) : OfLibrary fun heap => AppCode.call heap call :=
  .lib _ (.call call)

theorem ite_ofLibrary {α : Type} {c : Prop} [Decidable c] {f g : Heap → AppCode α}
    (hf : OfLibrary f) (hg : OfLibrary g) :
    OfLibrary fun heap => if c then f heap else g heap := by
  split
  · exact hf
  · exact hg

theorem revertIf_ofLibrary (condition : Bool) (msg : String) :
    OfLibrary fun heap => revertIf heap condition msg :=
  ite_ofLibrary (call_ofLibrary _) (.pure ())

theorem resizeIf_ofLibrary (condition : Bool) (newSize : Int) :
    OfLibrary fun heap => resizeIf heap condition newSize :=
  ite_ofLibrary (call_ofLibrary _) (.pure ())

theorem pScan_ofLibrary {α : Type} (start stop : String) (scan : Scan α) :
    OfLibrary fun _ => pScan start stop scan :=
  .lib false (.map (.call (.p_scan start stop scan.outcome)) fun _ => scan.value)

theorem append_ofLibrary (maxSize : Nat) (content str : String) :
    OfLibrary fun _ => append maxSize content str :=
  .lib false (.value _)

theorem invalid_ofLibrary (offset size : Int) : OfLibrary fun heap => invalid heap offset size :=
  .lib true (.map (.isValid _ _) _)

theorem loadInt64_ofLibrary (offset : Int) : OfLibrary fun heap => loadInt64 heap offset :=
  .lib true (.map (.load 8 _) _)

theorem verifyByAccOnce_ofLibrary (issuerAccount : LongID) (msg : String) (sigIndex : Int16)
    (balanceOffset : Int) :
    OfLibrary fun heap => verifyByAccOnce heap issuerAccount msg sigIndex balanceOffset :=
  .lib true (.map (.verifyByAccount issuerAccount msg _ true) _)

theorem createNormalAccount_ofLibrary (address : LongID) (pk : PublicKey) :
    OfLibrary fun heap => createNormalAccount heap address pk := by
  refine .bind (call_ofLibrary _) fun _ => .bind (invalid_ofLibrary 0 2) fun isInvalid =>
    ite_ofLibrary ?_ (.pure false)
  exact .bind (call_ofLibrary _) fun _ => .bind (call_ofLibrary _) fun _ =>
    .bind (call_ofLibrary _) fun _ => .pure true

theorem transferMessage_ofLibrary (recipient : LongID) (amount : Int64) :
    OfLibrary fun _ => transferMessage recipient amount :=
  .bind (append_ofLibrary _ _ _) fun _ => .bind (append_ofLibrary _ _ _) fun _ =>
    .bind (append_ofLibrary _ _ _) fun _ => append_ofLibrary _ _ _

theorem debit_ofLibrary (sender : LongID) (amount : Int64) (senderBalanceOffset : Int) :
    OfLibrary fun heap => debit heap sender amount senderBalanceOffset := by
  refine .bind (call_ofLibrary _) fun _ => .bind (invalid_ofLibrary _ _) fun missing =>
    .bind (revertIf_ofLibrary _ _) fun _ => .bind (loadInt64_ofLibrary _) fun balance => ?_
  exact .bind (revertIf_ofLibrary _ _) fun _ => .bind (call_ofLibrary _) fun _ =>
    resizeIf_ofLibrary _ _

theorem credit_ofLibrary (recipient : LongID) (amount : Int64) (recipientOffset : Int) :
    OfLibrary fun heap => credit heap recipient amount recipientOffset :=
  .bind (call_ofLibrary _) fun _ => .bind (invalid_ofLibrary _ _) fun _ =>
    .bind (resizeIf_ofLibrary _ _) fun _ => call_ofLibrary _

theorem transfer_ofLibrary (sender recipient : LongID) (amount : Int64) (sigIndex : Int16) :
    OfLibrary fun heap => transfer heap sender recipient amount sigIndex := by
  refine .bind (revertIf_ofLibrary _ _) fun _ => .bind (transferMessage_ofLibrary _ _) fun msg =>
    .bind (verifyByAccOnce_ofLibrary _ _ _ _) fun verified =>
      .bind (revertIf_ofLibrary _ _) fun _ => ?_
  exact .bind (debit_ofLibrary _ _ _) fun _ =>
    .bind (verifyByAccOnce_ofLibrary _ _ _ _) fun found =>
    .bind (revertIf_ofLibrary _ _) fun _ => credit_ofLibrary _ _ _

theorem dispatcher_ofLibrary (request : RequestText) :
    OfLibrary fun heap => dispatcher heap request := by
  have hpatch : OfLibrary fun heap => patch heap request :=
    .bind (pScan_ofLibrary _ _ _) fun account => .bind (pScan_ofLibrary _ _ _) fun recipient =>
      .bind (pScan_ofLibrary _ _ _) fun amount =>
        .bind (.lib false (.map (.call (.p_scan _ _ request.sigIndex.outcome)) _)) fun sigIndex =>
          .bind (transfer_ofLibrary account recipient amount sigIndex) fun _ =>
            .bind (append_ofLibrary _ _ _) fun _ => .pure 200
  have hput : OfLibrary fun heap => put heap request :=
    .bind (pScan_ofLibrary _ _ _) fun address => .bind (pScan_ofLibrary _ _ _) fun pk =>
      .bind (pScan_ofLibrary _ _ _) fun _ =>
        .bind (createNormalAccount_ofLibrary address pk) fun created => .pure _
  exact .bind (pScan_ofLibrary _ _ _) fun method =>
    ite_ofLibrary hpatch (ite_ofLibrary hput (.pure 200))

/-- What a request of the application does is one program for every heap, whatever it loads. -/
theorem dispatcher_program (req : AppRequest) (request : RequestText) : ∃ program : Program, ∀ heap,
    program.run heap req.modifier =
      ((req.callCode (dispatcher heap request)).1,
        (req.callCode (dispatcher heap request)).2.heapModifier) :=
  req.exists_program_of_code (dispatcher_ofLibrary request)

end ArgApp
end Argennon
