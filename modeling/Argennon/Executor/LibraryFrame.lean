import Argennon.Executor.Calls
import Argennon.Heap.ModifierSimulation
import Mathlib.Logic.Relation

/- What the functions of the library leave alone.

   `Keeps good R x` says that `x` leaves a session related by `R` to the one it gets,
   unless it ends with an error that is not `good`. A function of the library keeps
   `LibStep`, however it ends: it touches blocks, locks of its own application and
   signatures, and nothing that belongs to a call. -/
namespace Argennon

namespace ArgC

theorem bind_apply {α β : Type} (x : ArgC α) (f : α → ArgC β) (s : Session) :
    (x >>= f) s = match x s with
      | (.error e, s) => (.error e, s)
      | (.ok a, s) => f a s := by
  change ExceptT.bindCont f (x s).1 (x s).2 = _
  obtain ⟨_ | a, s'⟩ := x s <;> rfl

theorem bind_of_ok {α β : Type} {x : ArgC α} {f : α → ArgC β} {s s' : Session} {a : α}
    (h : x s = (.ok a, s')) :
    (x >>= f) s = f a s' := by
  rw [bind_apply, h]

theorem bind_of_error {α β : Type} {x : ArgC α} {f : α → ArgC β} {s s' : Session} {e : Exn}
    (h : x s = (.error e, s')) :
    (x >>= f) s = (.error e, s') := by
  rw [bind_apply, h]

@[simp] theorem pure_apply {α : Type} (a : α) (s : Session) :
    (pure a : ArgC α) s = (.ok a, s) := rfl

end ArgC

/-- The session that `x` leaves is related to the one before, unless `x` fails with an
error that is not good. -/
def Keeps {α : Type} (good : Exn → Prop) (R : Session → Session → Prop) (x : ArgC α) : Prop :=
  ∀ s, (∀ e, (x s).1 = .error e → good e) → R s (x s).2

/-- A relation that steps can be composed by. -/
structure StepRel (R : Session → Session → Prop) : Prop where
  refl : ∀ s, R s s
  trans : ∀ {s t u}, R s t → R t u → R s u

namespace Keeps
variable {α β : Type} {good : Exn → Prop} {R : Session → Session → Prop}

theorem pure (hR : StepRel R) (a : α) : Keeps good R (Pure.pure a : ArgC α) := fun s _ => hR.refl s

theorem throw (hR : StepRel R) (e : Exn) : Keeps good R (throw e : ArgC α) := fun s _ => hR.refl s

theorem liftExcept (hR : StepRel R) (r : Except Exn α) : Keeps good R (ArgC.liftExcept r) :=
  fun s _ => hR.refl s

theorem raise (hR : StepRel R) (message : String) (code : StatusCode) :
    Keeps good R (ArgC.raise message code : ArgC α) :=
  fun s _ => hR.refl s

theorem bind (hR : StepRel R) {x : ArgC α} {f : α → ArgC β} (hx : Keeps good R x)
    (hf : ∀ a, Keeps good R (f a)) :
    Keeps good R (x >>= f) := by
  intro s hgood
  have hstep := hx s
  rw [ArgC.bind_apply] at hgood ⊢
  generalize x s = r at hstep hgood ⊢
  obtain ⟨e | a, s'⟩ := r
  · apply hstep
    intro e' he'
    apply hgood
    cases he'
    rfl
  · apply hR.trans (hstep fun e he => nomatch he)
    exact hf a s' hgood

theorem discard (hR : StepRel R) {x : ArgC α} (hx : Keeps good R x) : Keeps good R (discard x) := by
  intro s hgood
  have hstep := hx.bind hR (fun _ => Keeps.pure hR ()) s
  exact hstep hgood

theorem ite {c : Prop} [Decidable c] {x y : ArgC α} (hx : Keeps good R x) (hy : Keeps good R y) :
    Keeps good R (if c then x else y) := by
  split
  · exact hx
  · exact hy

theorem mono {good' : Exn → Prop} {R' : Session → Session → Prop} {x : ArgC α} (h : Keeps good R x)
    (hgood : ∀ e, good' e → good e) (hR : ∀ s t, R s t → R' s t) : Keeps good' R' x :=
  fun s hs => hR _ _ (h s fun e he => hgood e (hs e he))

end Keeps

/-! ## Good pointers -/

namespace RestrictedModifier

/-- Past version 0, with pointers that are null or good. -/
structure Valid (m : RestrictedModifier AccessBlock) : Prop where
  version : 1 ≤ m.currentVersion
  chunks : ∀ i, m.chunks = some i → i < m.appsAccessMaps.values.length
  currentChunk : ∀ p, m.currentChunk = some p → ∃ c, m.appsAccessMaps.get p = some c

variable {m : RestrictedModifier AccessBlock}

theorem Valid.withVersion (h : m.Valid) {version : Nat} (hv : 1 ≤ version) :
    Valid { m with currentVersion := version } := ⟨hv, h.chunks, h.currentChunk⟩

theorem Valid.loadContext_valid (h : m.Valid) (appID : LongID) : (m.loadContext appID).Valid := by
  refine ⟨h.version, fun i hi => ?_, fun p hp => nomatch hp⟩
  obtain ⟨j, hj, hlt⟩ | he := OrderedStaticMap.find_cases m.appsAccessMaps.keys appID
  · simp only [loadContext, hj, Except.toOption, Option.some.injEq] at hi ⊢
    have := m.appsAccessMaps.size_eq
    omega
  · simp only [loadContext, he, Except.toOption] at hi
    cases hi

theorem length_set {B : Type} (m : AppMap B) (p : Nat × Nat) (c : ChunkInfo B) :
    (m.set p c).values.length = m.values.length := by
  unfold AppMap.set
  split
  · rfl
  · simp [OrderedStaticMap.setValue]

theorem Valid.access_valid (h : m.Valid) (heap : Heap) (op : ChunkOp) :
    (m.access heap op).2.Valid := by
  unfold access
  cases hp : m.currentChunk with
  | none => exact h
  | some p =>
    obtain ⟨c, hc⟩ := h.currentChunk p hp
    simp only [hc]
    refine ⟨h.version, fun i hi => ?_, fun q hq => ?_⟩
    · rw [length_set]
      exact h.chunks i hi
    · obtain rfl : p = q := Option.some.inj hq
      exact ⟨_, AppMap.get_set_self hc⟩

theorem Valid.loadChunk_valid (h : m.Valid) (accountID localID : LongID) :
    (m.loadChunk accountID localID).2.Valid := by
  unfold loadChunk
  cases hchunks : m.chunks with
  | none => exact h
  | some i =>
    have hlt := h.chunks i hchunks
    simp only [Option.bind_some, List.getElem?_eq_getElem hlt, Option.map_some]
    obtain ⟨j, hj, hlt'⟩ | he :=
      OrderedStaticMap.find_cases m.appsAccessMaps.values[i].keys (toLex (accountID, localID))
    · rw [hj]
      refine ⟨h.version, fun k hk => h.chunks k (hchunks.trans hk), fun p hp => ?_⟩
      obtain rfl := Option.some.inj hp
      have hsize := m.appsAccessMaps.values[i].size_eq
      refine ⟨m.appsAccessMaps.values[i].values[j], ?_⟩
      simp [AppMap.get, List.getElem?_eq_getElem hlt]
    · rw [he]
      exact h

end RestrictedModifier

/-! ## What the library does to a session -/

namespace VirtualSignatureManager

/-- What a function of the library does to the signatures. -/
inductive Change (m : VirtualSignatureManager) : VirtualSignatureManager → Prop
  | sign (msg : String) (issuer : LongID) : Change m (m.sign msg issuer).2
  | invalidate (msg : String) (issuer : LongID) (index : Int) :
      Change m (m.verifyAndInvalidate msg issuer index).2

/-- Messages were signed and invalidated, and nothing else. -/
abbrev Changed : VirtualSignatureManager → VirtualSignatureManager → Prop :=
  Relation.ReflTransGen Change

end VirtualSignatureManager

/-- The locks when the current call has given its own back. -/
def Session.callersLocks (s : Session) : LongID → Bool := (ArgC.exitArea s).isLocked

/-- The context of the current call is the one that is loaded. -/
def Session.ContextLoaded (s : Session) : Prop :=
  s.heapModifier.chunks =
    (OrderedStaticMap.find s.heapModifier.appsAccessMaps.keys s.currentCall.appID).toOption

/-- What belongs to calls is the same, and of the signatures only messages are signed and
invalidated. -/
structure SameCall (s s' : Session) : Prop where
  callManager : s'.callManager = s.callManager
  appTable : s'.appTable = s.appTable
  failureManager : s'.failureManager = s.failureManager
  currentResources : s'.currentResources = s.currentResources
  invocations : s'.invocations = s.invocations
  appID : s'.currentCall.appID = s.currentCall.appID
  callersLocks : s'.callersLocks = s.callersLocks
  currentVersion : s'.heapModifier.currentVersion = s.heapModifier.currentVersion
  keys : s'.heapModifier.appsAccessMaps.keys = s.heapModifier.appsAccessMaps.keys
  valid : s.heapModifier.Valid → s'.heapModifier.Valid
  signatures : s.sigManager.Changed s'.sigManager

/-- And the loaded context too. -/
structure SameContext (s s' : Session) : Prop extends SameCall s s' where
  chunks : s'.heapModifier.chunks = s.heapModifier.chunks

/-- A call of the library leaves the context of the current call loaded. -/
structure LibStep (s s' : Session) : Prop extends SameCall s s' where
  contextLoaded : s.ContextLoaded → s'.ContextLoaded

theorem Session.callersLocks_eq (s : Session) : s.callersLocks =
    if s.currentCall.hasLock then Function.update s.isLocked s.currentCall.appID false
    else s.isLocked := by
  unfold callersLocks ArgC.exitArea
  split <;> rfl

/-- The locks depend on nothing else. -/
theorem Session.callersLocks_congr {s s' : Session} (hlocked : s'.isLocked = s.isLocked)
    (hcall : s'.currentCall = s.currentCall) : s'.callersLocks = s.callersLocks := by
  rw [callersLocks_eq, callersLocks_eq, hlocked, hcall]

theorem SameCall.refl (s : Session) : SameCall s s :=
  ⟨rfl, rfl, rfl, rfl, rfl, rfl, rfl, rfl, rfl, fun h => h, .refl⟩

theorem SameCall.trans {s t u : Session} (h₁ : SameCall s t) (h₂ : SameCall t u) : SameCall s u :=
  { callManager := h₂.callManager.trans h₁.callManager
    appTable := h₂.appTable.trans h₁.appTable
    failureManager := h₂.failureManager.trans h₁.failureManager
    currentResources := h₂.currentResources.trans h₁.currentResources
    invocations := h₂.invocations.trans h₁.invocations
    appID := h₂.appID.trans h₁.appID
    callersLocks := h₂.callersLocks.trans h₁.callersLocks
    currentVersion := h₂.currentVersion.trans h₁.currentVersion
    keys := h₂.keys.trans h₁.keys
    valid := fun h => h₂.valid (h₁.valid h)
    signatures := h₁.signatures.trans h₂.signatures }

theorem sameContext_stepRel : StepRel SameContext where
  refl s := ⟨.refl s, rfl⟩
  trans h₁ h₂ := ⟨h₁.toSameCall.trans h₂.toSameCall, h₂.chunks.trans h₁.chunks⟩

theorem libStep_stepRel : StepRel LibStep where
  refl s := ⟨.refl s, fun h => h⟩
  trans h₁ h₂ := ⟨h₁.toSameCall.trans h₂.toSameCall, fun h => h₂.contextLoaded (h₁.contextLoaded h)⟩

theorem SameContext.libStep {s s' : Session} (h : SameContext s s') : LibStep s s' := by
  refine ⟨h.toSameCall, fun hs => ?_⟩
  unfold Session.ContextLoaded at hs ⊢
  rw [h.chunks, h.keys, h.appID]
  exact hs

/-! ## The functions one by one -/

namespace RestrictedModifier

theorem keys_set {B : Type} (m : AppMap B) (p : Nat × Nat) (c : ChunkInfo B) :
    (m.set p c).keys = m.keys := by
  unfold AppMap.set
  split <;> rfl

theorem loadChunk_frame {B : Type} (m : RestrictedModifier B) (accountID localID : LongID) :
    (m.loadChunk accountID localID).2.currentVersion = m.currentVersion ∧
      (m.loadChunk accountID localID).2.chunks = m.chunks ∧
      (m.loadChunk accountID localID).2.appsAccessMaps = m.appsAccessMaps := by
  unfold loadChunk
  split
  · exact ⟨rfl, rfl, rfl⟩
  · split <;> exact ⟨rfl, rfl, rfl⟩

theorem access_frame {B : Type} [HeapBlock B] (m : RestrictedModifier B) (heap : Heap)
    (op : ChunkOp) :
    (m.access heap op).2.currentVersion = m.currentVersion ∧
    (m.access heap op).2.chunks = m.chunks ∧
      (m.access heap op).2.currentChunk = m.currentChunk ∧
      (m.access heap op).2.appsAccessMaps.keys = m.appsAccessMaps.keys := by
  unfold access
  split
  · exact ⟨rfl, rfl, rfl, rfl⟩
  · split
    · exact ⟨rfl, rfl, rfl, rfl⟩
    · exact ⟨rfl, rfl, rfl, keys_set _ _ _⟩

end RestrictedModifier

/-- A relation that the operations on chunks keep. -/
structure HeapRule (R : Session → Session → Prop) : Prop where
  rel : StepRel R
  access : ∀ heap op s, R s (ArgC.heapOp heap (.access op) s).2
  loadChunk : ∀ heap accountID localID s, R s (ArgC.heapOp heap (.loadChunk accountID localID) s).2

namespace HeapRule
variable {R : Session → Session → Prop} {good : Exn → Prop}

theorem keeps_access (h : HeapRule R) (heap : Heap) (op : ChunkOp) :
    Keeps good R (ArgC.heapOp heap (.access op)) := fun s _ => h.access heap op s

theorem keeps_load (h : HeapRule R) (heap : Heap) (n offset : Nat) :
    Keeps good R (ArgC.load heap n offset) := by
  apply (h.keeps_access heap _).bind h.rel
  intro v
  cases v with
  | bytes content => exact .pure h.rel _
  | _ => exact .throw h.rel _

theorem keeps_store (h : HeapRule R) (heap : Heap) (n offset value : Nat) :
    Keeps good R (ArgC.store heap n offset value) :=
  (h.keeps_access heap _).bind h.rel fun _ => .pure h.rel _

theorem keeps_isValid (h : HeapRule R) (heap : Heap) (offset size : Nat) :
    Keeps good R (ArgC.isValid heap offset size) := by
  apply (h.keeps_access heap _).bind h.rel
  intro v
  cases v with
  | bool b => exact .pure h.rel _
  | _ => exact .throw h.rel _

theorem keeps_loadChunk (h : HeapRule R) (heap : Heap) (accountID localID : LongID) :
    Keeps good R (ArgC.loadChunk heap accountID localID) := by
  have hop : Keeps good R (ArgC.heapOp heap (.loadChunk accountID localID)) :=
    fun s _ => h.loadChunk heap accountID localID s
  exact hop.bind h.rel fun _ => .pure h.rel _

theorem keeps_loadAccountChunk (h : HeapRule R) (heap : Heap) (accID localID : LongID) :
    Keeps good R (ArgC.loadAccountChunk heap accID localID) :=
  .ite (.raise h.rel _ _) (h.keeps_loadChunk heap accID localID)

theorem keeps_blockSize (h : HeapRule R) (offset : Nat) : Keeps good R (ArgC.blockSize offset) := by
  intro s _
  unfold ArgC.blockSize
  split
  · exact h.rel.refl s
  · split <;> exact h.rel.refl s

theorem keeps_loadIdentifier (h : HeapRule R) (heap : Heap) (offset : Nat) :
    Keeps good R (ArgC.loadIdentifier heap offset) := by
  apply (h.keeps_blockSize offset).bind h.rel
  intro size
  apply (h.keeps_access heap _).bind h.rel
  intro v
  cases v with
  | bytes content => exact .liftExcept h.rel _
  | _ => exact .throw h.rel _

theorem keeps_checkOwner (h : HeapRule R) (heap : Heap) (signer issuerAccount : LongID) :
    Keeps good R (ArgC.checkOwner heap signer issuerAccount) := by
  apply (h.keeps_loadChunk heap _ _).bind h.rel
  intro _
  apply (h.keeps_isValid heap _ _).bind h.rel
  intro valid
  apply Keeps.ite ?_ (.raise h.rel _ _)
  apply (h.keeps_load heap _ _).bind h.rel
  intro decisionNonce
  apply Keeps.ite (.raise h.rel _ _)
  apply (h.keeps_loadIdentifier heap _).bind h.rel
  intro owner
  exact .ite (.raise h.rel _ _) (.pure h.rel _)

end HeapRule

/-- A relation that changes of the signatures keep too. -/
structure FrameRule (R : Session → Session → Prop) : Prop extends HeapRule R where
  signatures : ∀ s {m}, s.sigManager.Change m → R s { s with sigManager := m }

namespace FrameRule
variable {R : Session → Session → Prop} {good : Exn → Prop}

theorem keeps_verify (h : FrameRule R) (msg : String) (issuer : LongID) (sigIndex : Int) :
    Keeps good R (ArgC.verify msg issuer sigIndex) := fun s _ => h.rel.refl s

theorem keeps_sign (h : FrameRule R) (msg : String) (issuer : LongID) :
    Keeps good R (ArgC.sign msg issuer) := fun s _ => h.signatures s (.sign msg issuer)

theorem keeps_consumeNonce (h : FrameRule R) (heap : Heap) (index nonce : Nat)
    (issuer spender : LongID) (msg : String) (sigIndex : Int) :
    Keeps good R (ArgC.consumeNonce heap index nonce issuer spender msg sigIndex) := by
  apply Keeps.ite (.pure h.rel _)
  apply (Keeps.liftExcept h.rel _).bind h.rel
  intro msg
  apply (h.keeps_verify msg issuer sigIndex).bind h.rel
  intro valid
  apply Keeps.ite
  · exact (h.keeps_store heap _ _ _).bind h.rel fun _ => .pure h.rel _
  · exact .pure h.rel _

theorem keeps_verifyWithMultiwayNonce (h : FrameRule R) (heap : Heap) (nonceCount : Nat)
    (issuer spender : LongID) (msg : String) (sigIndex : Int) (invalidate : Bool) :
    Keeps good R
      (ArgC.verifyWithMultiwayNonce heap nonceCount issuer spender msg sigIndex invalidate) := by
  apply Keeps.ite (.pure h.rel _)
  apply Keeps.ite (h.keeps_verify msg issuer sigIndex)
  apply (h.keeps_load heap _ _).bind h.rel
  exact fun nonce => h.keeps_consumeNonce heap _ nonce issuer spender msg sigIndex

theorem keeps_verifyByApp (h : FrameRule R) (issuer spender : LongID) (msg : String)
    (sigIndex : Int) (invalidateMsg : Bool) :
    Keeps good R (ArgC.verifyByApp issuer spender msg sigIndex invalidateMsg) := by
  apply Keeps.ite (.pure h.rel _)
  apply Keeps.ite (h.keeps_verify msg issuer sigIndex)
  apply (Keeps.liftExcept h.rel _).bind h.rel
  exact fun msg s _ => h.signatures s (.invalidate msg issuer sigIndex)

theorem keeps_verifyByKind (h : FrameRule R) (heap : Heap) (decisionNonce : Nat)
    (issuerAccount spender : LongID) (msg : String) (sigIndex : Int) (invalidateMsg : Bool) :
    Keeps good R
      (ArgC.verifyByKind heap decisionNonce issuerAccount spender msg sigIndex invalidateMsg) := by
  have hkey : ∀ n, Keeps good R (do
      let valid ←
        ArgC.verifyWithMultiwayNonce heap n issuerAccount spender msg sigIndex invalidateMsg
      pure (valid, some ArgC.keyBalanceIndex)) := by
    intro n
    apply (h.keeps_verifyWithMultiwayNonce heap n issuerAccount spender msg sigIndex _).bind h.rel
    exact fun _ => .pure h.rel _
  unfold ArgC.verifyByKind
  apply Keeps.ite
  · apply (h.keeps_verifyByApp issuerAccount spender msg sigIndex invalidateMsg).bind h.rel
    exact fun _ => .pure h.rel _
  · exact .ite (hkey 5) (.ite (hkey 11) (.ite (hkey 1) (.pure h.rel _)))

end FrameRule

/-- A relation `S` that every function of the library keeps but those on areas: `R` is kept
in the context of the ARG application, which is left for the one of the caller. -/
structure LibRule (R S : Session → Session → Prop) : Prop extends FrameRule R where
  caller : StepRel S
  inside : ∀ {s t}, R s t → S s t
  argContext : ∀ {s t}, R (s.loadContext argAppID) t → S s (t.loadContext s.currentCall.appID)

namespace LibRule
variable {R S : Session → Session → Prop} {good : Exn → Prop}

theorem keeps_inside (h : LibRule R S) {α : Type} {x : ArgC α} (hx : Keeps good R x) :
    Keeps good S x := hx.mono (fun _ h => h) fun _ _ => h.inside

theorem keeps_withArgContext (h : LibRule R S) {α : Type} {body : LongID → ArgC α}
    (hbody : ∀ caller, Keeps (fun _ => True) R (body caller)) :
    Keeps good S (ArgC.withArgContext body) := fun s _ =>
  h.argContext (hbody s.currentCall.appID (s.loadContext argAppID) fun _ _ => trivial)

theorem keeps_verifyByAccount (h : LibRule R S) (heap : Heap) (issuerAccount : LongID)
    (msg : String) (sigIndex : Int) (invalidateMsg : Bool) :
    Keeps good S (ArgC.verifyByAccount heap issuerAccount msg sigIndex invalidateMsg) := by
  apply h.keeps_withArgContext
  intro spender
  apply (h.keeps_loadChunk heap _ _).bind h.rel
  intro _
  apply (h.keeps_isValid heap _ _).bind h.rel
  intro valid
  apply Keeps.ite ?_ (.pure h.rel _)
  apply (h.keeps_load heap _ _).bind h.rel
  intro decisionNonce
  exact h.keeps_verifyByKind heap decisionNonce issuerAccount spender msg sigIndex invalidateMsg

theorem keeps_virtualSign (h : LibRule R S) (heap : Heap) (issuerAccount : LongID) (msg : String) :
    Keeps good S (ArgC.virtualSign heap issuerAccount msg) := by
  apply h.keeps_withArgContext
  intro signer
  apply (h.keeps_checkOwner heap signer issuerAccount).bind h.rel
  intro _
  exact (h.keeps_sign msg issuerAccount).bind h.rel fun _ => .pure h.rel _

/-- A call of the library keeps the relation, if the functions on areas do. -/
theorem keeps_exec (h : LibRule R S) (heap : Heap) (call : LibCall)
    (henter : call = .enter_area → Keeps good S ArgC.enterArea)
    (hexit : call = .exit_area → ∀ s, S s (ArgC.exitArea s)) : Keeps good S (call.exec heap) := by
  have hS := h.caller
  have haccess : ∀ op, Keeps good S (discard (ArgC.heapOp heap (.access op))) :=
    fun op => (h.keeps_inside (h.keeps_access heap op)).discard hS
  cases call with
  | load_int64 offset => exact (h.keeps_inside (h.keeps_load heap _ _)).discard hS
  | store_int64 offset value => exact h.keeps_inside (h.keeps_store heap _ _ _)
  | store_int16 offset value => exact h.keeps_inside (h.keeps_store heap _ _ _)
  | store_pk offset index value => exact haccess _
  | add_int64_to offset amount => exact haccess _
  | resize_chunk newSize => exact haccess _
  | get_chunk_size => exact haccess _
  | invalid offset size => exact (h.keeps_inside (h.keeps_isValid heap _ _)).discard hS
  | load_local_chunk id => exact h.keeps_inside (h.keeps_loadChunk heap _ _)
  | load_account_chunk accID localID => exact h.keeps_inside (h.keeps_loadAccountChunk heap _ _)
  | enter_area => exact henter rfl
  | exit_area => exact fun s _ => hexit rfl s
  | append maxSize content str => exact Keeps.discard hS (.liftExcept hS _)
  | p_scan start stop outcome =>
    cases outcome with
    | found => exact .pure hS _
    | _ => exact .raise hS _ _
  | scan_int64 inRange => exact .liftExcept hS _
  | scan_float64 inRange => exact .liftExcept hS _
  | safe_addf64 a b => exact .liftExcept hS _
  | exact_addf64 a b => exact .liftExcept hS _
  | revert msg => exact .raise hS _ _
  | verify_by_acc_once issuerAccount msg sigIndex =>
    exact (h.keeps_verifyByAccount heap _ _ _ _).discard hS
  | verify_by_acc issuerAccount msg sigIndex =>
    exact (h.keeps_verifyByAccount heap _ _ _ _).discard hS
  | virtual_sign issuerAccount msg => exact h.keeps_virtualSign heap _ _

end LibRule

/-! ## What belongs to calls -/

/-- A change of the modifier alone. -/
theorem sameContext_withModifier {s : Session} {m : RestrictedModifier AccessBlock}
    (hversion : m.currentVersion = s.heapModifier.currentVersion)
    (hkeys : m.appsAccessMaps.keys = s.heapModifier.appsAccessMaps.keys)
    (hchunks : m.chunks = s.heapModifier.chunks) (hvalid : s.heapModifier.Valid → m.Valid) :
    SameContext s { s with heapModifier := m } :=
  ⟨⟨rfl, rfl, rfl, rfl, rfl, rfl, Session.callersLocks_congr rfl rfl, hversion, hkeys, hvalid,
    .refl⟩, hchunks⟩

/-- A change of the signatures alone. -/
theorem sameContext_withSigManager (s : Session) {m : VirtualSignatureManager}
    (h : s.sigManager.Change m) : SameContext s { s with sigManager := m } :=
  ⟨⟨rfl, rfl, rfl, rfl, rfl, rfl, Session.callersLocks_congr rfl rfl, rfl, rfl, fun h => h,
    .single h⟩, rfl⟩

/-- Another context is loaded. -/
theorem sameCall_loadContext (s : Session) (appID : LongID) : SameCall s (s.loadContext appID) :=
  ⟨rfl, rfl, rfl, rfl, rfl, rfl, Session.callersLocks_congr rfl rfl, rfl, rfl,
    fun h => h.loadContext_valid appID, .refl⟩

theorem sameContext_libRule : LibRule SameContext LibStep where
  rel := sameContext_stepRel
  access heap op s := by
    obtain ⟨hversion, hchunks, _, hkeys⟩ := s.heapModifier.access_frame heap op
    exact sameContext_withModifier hversion hkeys hchunks fun h => h.access_valid heap op
  loadChunk heap accountID localID s := by
    obtain ⟨hversion, hchunks, hmaps⟩ := s.heapModifier.loadChunk_frame accountID localID
    exact sameContext_withModifier hversion (congrArg (·.keys) hmaps) hchunks
      fun h => h.loadChunk_valid accountID localID
  signatures := sameContext_withSigManager
  caller := libStep_stepRel
  inside := SameContext.libStep
  argContext {s t} h := by
    have hsame := (sameCall_loadContext s argAppID).trans
      (h.toSameCall.trans (sameCall_loadContext t s.currentCall.appID))
    refine ⟨hsame, fun _ => ?_⟩
    unfold Session.ContextLoaded
    rw [hsame.appID]
    rfl

namespace ArgC

theorem callersLocks_exitArea (s : Session) : (exitArea s).callersLocks = s.callersLocks := by
  unfold Session.callersLocks exitArea
  by_cases h : s.currentCall.hasLock
  · simp [h]
  · simp [h]

theorem sameContext_exitArea (s : Session) : SameContext s (exitArea s) := by
  refine ⟨⟨?_, ?_, ?_, ?_, ?_, ?_, callersLocks_exitArea s, ?_, ?_, ?_, ?_⟩, ?_⟩
  case refine_9 =>
    unfold exitArea
    split <;> exact fun h => h
  case refine_10 =>
    unfold exitArea
    split <;> exact .refl
  all_goals
    unfold exitArea
    split <;> rfl

theorem keeps_enterArea {good : Exn → Prop} : Keeps good SameContext enterArea := by
  intro s _
  unfold enterArea
  split
  · exact sameContext_stepRel.refl s
  · split
    · exact sameContext_stepRel.refl s
    · rename_i hlock hfree
      refine ⟨⟨rfl, rfl, rfl, rfl, rfl, rfl, ?_, rfl, rfl, fun h => h, .refl⟩, rfl⟩
      -- the lock was free, and giving it back frees it again
      have hsame : Function.update s.isLocked s.currentCall.appID false = s.isLocked := by
        rw [← Bool.eq_false_iff.mpr hfree, Function.update_eq_self]
      simp [Session.callersLocks_eq, hlock, hsame]

end ArgC

/-- **Frame of the library.** Every call of the library, however it ends, leaves what
belongs to calls as it was. -/
theorem LibCall.keeps (heap : Heap) (call : LibCall) :
    Keeps (fun _ => True) LibStep (call.exec heap) :=
  sameContext_libRule.keeps_exec heap call
    (fun _ => sameContext_libRule.keeps_inside ArgC.keeps_enterArea)
    fun _ s => (ArgC.sameContext_exitArea s).libStep

end Argennon
