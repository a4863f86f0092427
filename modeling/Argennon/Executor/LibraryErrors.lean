import Argennon.Executor.Calls
import Argennon.Executor.ErrorResponse
import Argennon.Executor.LibraryFrame

/- How the functions of the library fail.

   In the session of a thread the modifier is past version 0 and its pointers are null
   or good (`Valid`). There a function of the library throws `out_of_range` or an
   `Executor::Error`, both of which are caught, but for the cases listed in `Escapes`:
   three exceptions of other types, and the null pointers that are followed in a guarded
   area. -/
namespace Argennon

/-- `out_of_range` with a short message. -/
def Exn.IsOutOfRange : Exn → Prop
  | .outOfRange message => Short message
  | _ => False

instance (message : String) : Decidable (Exn.IsOutOfRange (.outOfRange message)) :=
  inferInstanceAs (Decidable (Short message))

/-- An error of a function that is called by `app`: `dependant_call` catches `out_of_range`
around the dispatcher, and `invoke_noexcept` catches `Executor::Error`. -/
def Exn.IsCaught (app : LongID) : Exn → Prop
  | .outOfRange message => Short message
  | .executorError message _ app' => Short message ∧ app' = app
  | _ => False

theorem Exn.IsOutOfRange.isCaught {app : LongID} {e : Exn} (h : e.IsOutOfRange) :
    e.IsCaught app := by
  cases e with
  | outOfRange message => exact h
  | _ => exact h.elim

/-- Every error of the computation has the property. -/
def FailsWith {α : Type} (p : Exn → Prop) (r : Except Exn α) : Prop := ∀ e, r = .error e → p e

section
variable {α β : Type} {p : Exn → Prop}

theorem failsWith_ok (a : α) : FailsWith p (.ok a : Except Exn α) := fun _ h => nomatch h

theorem failsWith_error {e : Exn} : FailsWith p (.error e : Except Exn α) ↔ p e :=
  ⟨fun h => h e rfl, fun h _ he => Except.error.inj he ▸ h⟩

theorem FailsWith.map {r : Except Exn α} (h : FailsWith p r) (f : α → β) :
    FailsWith p (r.map f) := by
  cases r with
  | ok a => exact failsWith_ok _
  | error e => exact failsWith_error.mpr (failsWith_error.mp h)

theorem FailsWith.mono {q : Exn → Prop} {r : Except Exn α} (h : FailsWith p r)
    (hpq : ∀ e, p e → q e) : FailsWith q r :=
  fun e he => hpq e (h e he)

end

/-! ## Blocks and chunks -/

namespace AccessBlock
variable {b : AccessBlock} {version : Nat}

end AccessBlock

/-- The offset of the operation is one of 32 bits. -/
def ChunkOp.InRange : ChunkOp → Prop
  | .load offset _ _ | .store offset _ _ | .addInt offset _ _ | .isValid offset _ => offset < 2 ^ 32
  | .getChunkSize | .updateChunkSize _ => True

namespace ChunkInfo
variable {c : ChunkInfo AccessBlock} {chunk : Chunk} {version : Nat}

end ChunkInfo

/-! ## The modifier of a thread -/

namespace RestrictedModifier

variable {m : RestrictedModifier AccessBlock}

end RestrictedModifier

/-! ## The functions one by one -/

/-- In a valid session `x` fails with caught exceptions only, and leaves a valid session of
the same application. -/
def Safe {α : Type} (x : ArgC α) : Prop :=
  ∀ s, s.heapModifier.Valid → FailsWith (Exn.IsCaught s.currentCall.appID) (x s).1 ∧
    (x s).2.heapModifier.Valid ∧ (x s).2.currentCall.appID = s.currentCall.appID

namespace Safe
variable {α β : Type}

theorem pure (a : α) : Safe (Pure.pure a : ArgC α) := fun _ h => ⟨failsWith_ok a, h, rfl⟩

theorem liftExcept {r : Except Exn α} (hr : FailsWith Exn.IsOutOfRange r) :
    Safe (ArgC.liftExcept r) :=
  fun _ h => ⟨hr.mono fun _ => Exn.IsOutOfRange.isCaught, h, rfl⟩

theorem raise {message : String} (hshort : Short message) (code : StatusCode) :
    Safe (ArgC.raise message code : ArgC α) :=
  fun _ h => ⟨failsWith_error.mpr ⟨hshort, rfl⟩, h, rfl⟩

/-- The rest is safe for what `x` can return. -/
theorem bind_of {x : ArgC α} {f : α → ArgC β} {p : α → Prop} (hx : Safe x)
    (hp : ∀ s a t, x s = (.ok a, t) → p a)
    (hf : ∀ a, p a → Safe (f a)) : Safe (x >>= f) := by
  intro s hs
  have hstep := hx s hs
  have hresult := hp s
  rw [ArgC.bind_apply]
  generalize x s = r at hstep hresult
  obtain ⟨e | a, t⟩ := r
  · exact ⟨failsWith_error.mpr (hstep.1 e rfl), hstep.2⟩
  · obtain ⟨hfails, hvalid, happ⟩ := hf a (hresult a t rfl) t hstep.2.1
    have happ' : t.currentCall.appID = s.currentCall.appID := hstep.2.2
    exact ⟨happ' ▸ hfails, hvalid, happ.trans happ'⟩

theorem bind {x : ArgC α} {f : α → ArgC β} (hx : Safe x) (hf : ∀ a, Safe (f a)) : Safe (x >>= f) :=
  hx.bind_of (p := fun _ => True) (fun _ _ _ _ => trivial) fun a _ => hf a

theorem discard {x : ArgC α} (hx : Safe x) : Safe (discard x) := hx.bind fun _ => .pure ()

theorem ite {c : Prop} [Decidable c] {x y : ArgC α} (hx : Safe x) (hy : Safe y) :
    Safe (if c then x else y) := by
  split
  · exact hx
  · exact hy

end Safe

namespace ArgC

/-- The access map of the request has nothing of the ARG application. -/
def NoArgContext (s : Session) : Prop := (s.loadContext argAppID).heapModifier.chunks = none

/-- The signature would cost more than is left. -/
def TooManySignatures (m : VirtualSignatureManager) (msg : String) : Prop :=
  VirtualSignatureManager.maxCost <
    (m.cost + (msg.utf8ByteSize + VirtualSignatureManager.sigConstantCost)) % 2 ^ 64

end ArgC

/-! ## The calls -/

/-- The library call, in a session of a controlled execution, fails in a way that is not
caught:
- an addition loses more than it may, `virtual_sign` is out of budget for an account that
  the application owns, or a string that is appended has too many bytes for an `int`;
- a null pointer is followed in a guarded area, where the signal ends the process. -/
def LibCall.Escapes (heap : Heap) (s : Session) : LibCall → Prop
  | .safe_addf64 a b => ArgC.lossTooLarge a b ArgC.maxAdditionLoss
  | .exact_addf64 a b => ArgC.lossTooLarge a b 0
  | .append maxSize content str => Oversized maxSize content str
  | .resize_chunk _ | .get_chunk_size => s.heapModifier.currentChunk = none
  | .verify_by_acc_once _ _ _ => ArgC.NoArgContext s
  | .virtual_sign issuerAccount msg => ArgC.NoArgContext s ∨
      ∃ t, ArgC.checkOwner heap s.currentCall.appID issuerAccount (s.loadContext argAppID) =
        (.ok (), t) ∧
        ArgC.TooManySignatures t.sigManager msg
  | _ => False

/-- The text that the application itself gives to the error of a call. -/
def LibCall.errorText : LibCall → Option String
  | .revert msg => some msg
  | .p_scan start _ .noStart => some ("start pattern:" ++ start ++ " not found")
  | .p_scan _ stop .noEnd => some ("end pattern:" ++ stop ++ " not found")
  | .p_scan _ _ (.parseError what) => some what
  | _ => none

/-- The response to the failure of a call can be written. -/
def LibCall.Reportable (app : LongID) (call : LibCall) : Prop :=
  match call.errorText with
  | some msg => Writable msg .bad_request app
  | none => Numbered app

/-- A call of the library is contained: it does not escape, and if it fails there is a response. -/
def LibCall.Contained (heap : Heap) (s : Session) (call : LibCall) : Prop :=
  ¬ call.Escapes heap s ∧
    ((∃ e, (call.exec heap s).1 = .error e) → call.Reportable s.currentCall.appID)

section
variable {heap : Heap} {s : Session} {call : LibCall}

end
end Argennon
