import Argennon.Executor.RequestProgram
import Argennon.Executor.AppCode
import Argennon.Executor.CallStackRefinement
import Argennon.Heap.ModifierSimulation

/- Every application is a program over the operations of its modifier.

   The library and the callers look at the heap only by operations of the modifier. Between two
   operations they use what the operations have returned, and the part of the session that no
   content of the heap can change: `SameShape` is the relation of two sessions that differ in that
   content only. So what a run does is one program for all heaps (`exists_program`). -/
namespace Argennon

open RestrictedModifier

/-! ## The part of a session that no content changes -/

/-- Blocks of the same sizes at the same offsets, whatever they hold. -/
structure SameSizes (c c' : ChunkInfo AccessBlock) : Prop where
  keys : c.accessTable.keys = c'.accessTable.keys
  sizes : List.Forall₂ (fun b b' => b.size = b'.size) c.accessTable.values c'.accessTable.values

namespace SameSizes
variable {c c' c'' : ChunkInfo AccessBlock}

theorem of_table (h : c'.accessTable = c.accessTable) : SameSizes c c' := by
  refine ⟨congrArg OrderedStaticMap.keys h.symm, ?_⟩
  rw [h]
  exact List.forall₂_same.mpr fun _ _ => rfl

theorem refl (c : ChunkInfo AccessBlock) : SameSizes c c := of_table rfl

theorem symm (h : SameSizes c c') : SameSizes c' c :=
  ⟨h.keys.symm, h.sizes.flip.imp fun _ _ => Eq.symm⟩

theorem trans (h : SameSizes c c') (h' : SameSizes c' c'') : SameSizes c c'' :=
  ⟨h.keys.trans h'.keys, (forall₂_comp h.sizes h'.sizes).imp fun _ _ ⟨_, h1, h2⟩ => h1.trans h2⟩

/-- The size of a block can be found without its content. -/
theorem getAccessBlock (h : SameSizes c c') (offset : Nat) :
    (c.getAccessBlock offset).map (fun kb => kb.2.size) =
    (c'.getAccessBlock offset).map fun kb => kb.2.size := by
  unfold ChunkInfo.getAccessBlock
  rw [h.keys]
  cases OrderedStaticMap.find c'.accessTable.keys offset with
  | error e => cases e <;> rfl
  | ok k =>
    simp only [vecGet]
    obtain ⟨h1, h2⟩ | ⟨b, b', h1, h2, hsize⟩ := forall₂_getElem? h.sizes k
    · rw [h1, h2]
    · rw [h1, h2]
      exact congrArg Except.ok hsize

theorem onBlock {α : Type} (chunk : Chunk) (offset : Nat)
    {f : AccessBlock → List Byte → Except Exn α × AccessBlock}
    (hf : ∀ b base, base.length = b.size → (f b base).2.size = b.size) :
    SameSizes c (c.onBlock chunk offset f).2 := by
  unfold ChunkInfo.onBlock
  cases hget : c.getAccessBlock offset with
  | error e => exact refl c
  | ok kb =>
    obtain ⟨k, b⟩ := kb
    obtain ⟨hlt, hb⟩ := List.getElem?_eq_some_iff.mp (ChunkInfo.getAccessBlock_ok hget)
    have hset := forall₂_set (refl c).sizes k
      (hf b _ (readAt_length chunk.content b.heapLocation b.size)).symm
    rw [← hb, List.set_getElem_self, hb] at hset
    exact ⟨rfl, hset⟩

/-- No operation moves a block. -/
theorem exec (c : ChunkInfo AccessBlock) (chunk : Chunk) (version : Nat) (op : ChunkOp) :
    SameSizes c (c.exec chunk version op).2 := by
  cases op with
  | load offset index n =>
    refine onBlock chunk offset (f := fun b base => HeapBlock.read b base version index n)
      fun b base _ => ?_
    obtain ⟨e, he⟩ | ⟨-, -, he⟩ :=
      b.read_cases base version index n <;> exact congrArg (fun r => r.2.size) he
  | store offset index value =>
    refine onBlock chunk offset (f := fun b base => HeapBlock.write b base version index value)
      fun b base hbase => ?_
    obtain ⟨e, he⟩ | ⟨e, he⟩ | ⟨-, -, b', he, hsame, -⟩ := b.write_cases hbase version index value
    · exact congrArg (fun r => r.2.size) he
    · exact congrArg (fun r => r.2.size) he
    · exact (congrArg (fun r => r.2.size) he).trans hsame.size
  | addInt offset n value =>
    refine onBlock chunk offset (f := fun b _ => HeapBlock.addInt b version n value) fun b _ _ => ?_
    obtain ⟨e, he⟩ | ⟨e, he⟩ | ⟨-, -, b', he, hsame, -⟩ := b.addInt_cases version n value
    · exact congrArg (fun r => r.2.size) he
    · exact congrArg (fun r => r.2.size) he
    · exact (congrArg (fun r => r.2.size) he).trans hsame.size
  -- the other operations do not touch the blocks
  | isValid offset n =>
    simp only [ChunkInfo.exec, ChunkInfo.isValid]
    split
    · exact refl c
    · split <;> exact of_table rfl
  | getChunkSize =>
    simp only [ChunkInfo.exec, ChunkInfo.getChunkSize]
    split <;> exact of_table rfl
  | updateChunkSize newSize =>
    have hread : SameSizes c (c.readSize chunk version).2 := of_table rfl
    simp only [ChunkInfo.exec, ChunkInfo.updateChunkSize]
    generalize c.readSize chunk version = r at hread ⊢
    obtain ⟨e | oldSize, c'⟩ := r
    · exact hread
    have hwrite : SameSizes c (c'.writeSize chunk version newSize).2 := hread.trans (of_table rfl)
    simp only
    split
    · exact hread
    · split
      · split
        · exact hread
        · exact hwrite
      · split
        · exact hread
        · exact hwrite
      · exact hread
      · exact hread

end SameSizes

/-- The modifiers stand at the same place, whatever the operations so far have read. -/
theorem RestrictedModifier.Related.exec_sameSizes {m m' : RestrictedModifier AccessBlock}
    (h : Related SameSizes m m') (heap heap' : Heap)
    (op : Op) : Related SameSizes (m.exec heap op).2 (m'.exec heap' op).2 := by
  cases op with
  | loadContext appID => exact h.loadContext appID
  | loadChunk accountID localID => exact (h.loadChunk accountID localID).2
  | saveVersion =>
    simp only [RestrictedModifier.exec, saveVersion, h.currentVersion]
    split
    · exact h
    · exact ⟨rfl, h.currentChunk, h.chunks, h.maps⟩
  | restoreVersion version =>
    simp only [RestrictedModifier.exec, restoreVersion, h.currentVersion]
    split
    · exact ⟨rfl, h.currentChunk, h.chunks, h.maps⟩
    · exact h
  | access op =>
    simp only [RestrictedModifier.exec, RestrictedModifier.access, h.currentChunk]
    cases m'.currentChunk with
    | none => exact h
    | some p =>
      obtain ⟨h1, h2⟩ | ⟨c, c', h1, h2, hc⟩ := h.maps.get p
      · simp only [h1, h2]
        exact h
      · simp only [h1, h2]
        have hexec : SameSizes (c.exec (heap c.ptr) m.currentVersion op).2
            (c'.exec (heap' c'.ptr) m'.currentVersion op).2 :=
          (SameSizes.exec c _ _ op).symm.trans (hc.trans (SameSizes.exec c' _ _ op))
        exact ⟨h.currentVersion, rfl, h.chunks, h.maps.set p hexec⟩

/-- Sessions that differ at most in what the blocks of their modifiers hold. -/
structure Session.SameShape (s t : Session) : Prop where
  modifier : Related SameSizes s.heapModifier t.heapModifier
  rest : t = { s with heapModifier := t.heapModifier }

namespace Session.SameShape
variable {s t : Session}

theorem currentCall (h : s.SameShape t) : t.currentCall = s.currentCall := by rw [h.rest]

/-- A function that leaves the modifier alone. -/
theorem frame {α : Type} (h : s.SameShape t) {f : ArgC α}
    (hf : ∀ m, f { s with heapModifier := m } = ((f s).1, { (f s).2 with heapModifier := m })) :
    f t = ((f s).1, { (f s).2 with heapModifier := t.heapModifier }) ∧
      (f s).2.SameShape (f t).2 := by
  have hs : (f s).2.heapModifier = s.heapModifier := by rw [hf s.heapModifier]
  have ht : f t = ((f s).1, { (f s).2 with heapModifier := t.heapModifier }) := by
    rw [h.rest]; exact hf t.heapModifier
  refine ⟨ht, ?_⟩
  rw [ht]
  exact ⟨hs ▸ h.modifier, rfl⟩

end Session.SameShape

/-! ## Functions that learn of the heap by operations -/

/-- From the session `s` on, the function does a program: whatever is done with its result and with
what no content changes, one program does it for all heaps. -/
def AsksAt {α : Type} (s : Session) (f : Heap → ArgC α) : Prop :=
  ∀ next : Except Exn α → Session → Program, ∃ program : Program, ∀ heap t, s.SameShape t →
    ∃ s', s'.SameShape (f heap t).2 ∧
    program.run heap t.heapModifier = (next (f heap t).1 s').run heap (f heap t).2.heapModifier

/-- From any session on. -/
def Asks {α : Type} (f : Heap → ArgC α) : Prop := ∀ s, AsksAt s f

namespace AsksAt
variable {α β : Type} {s : Session} {f f' : Heap → ArgC α}

theorem congr (hf : AsksAt s f) (h : ∀ heap t, s.SameShape t → f' heap t = f heap t) :
    AsksAt s f' := by
  intro next
  obtain ⟨program, hprogram⟩ := hf next
  refine ⟨program, fun heap t ht => ?_⟩
  rw [h heap t ht]
  exact hprogram heap t ht

/-- A function that leaves the modifier alone and does not look into it. -/
theorem of_frame {f : ArgC α}
    (hf : ∀ m, f { s with heapModifier := m } = ((f s).1, { (f s).2 with heapModifier := m })) :
    AsksAt s fun _ => f := by
  refine fun next => ⟨next (f s).1 (f s).2, fun heap t ht => ⟨(f s).2, ?_⟩⟩
  obtain ⟨heq, hshape⟩ := ht.frame hf
  refine ⟨hshape, ?_⟩
  simp only [heq]

/-- One function after the other, which also gets the error of the first. -/
theorem andThen {g : Except Exn α → Heap → ArgC β} (hf : AsksAt s f) (hg : ∀ r, Asks (g r)) :
    AsksAt s fun heap t => g (f heap t).1 heap (f heap t).2 := by
  intro next
  choose rest hrest using fun r s' => hg r s' next
  obtain ⟨program, hprogram⟩ := hf rest
  refine ⟨program, fun heap t ht => ?_⟩
  obtain ⟨s', hs', hrun⟩ := hprogram heap t ht
  obtain ⟨s'', hs'', hrun'⟩ := hrest (f heap t).1 s' heap (f heap t).2 hs'
  exact ⟨s'', hs'', hrun.trans hrun'⟩

end AsksAt

/-! ## What follows a function -/

/-- `callLib` once the function of the library is done. -/
def afterLib {α : Type} (guarded : Bool) (r : Except Exn α) : ArgC (Except Signal α) := fun s =>
  match r with
  | .ok a => (.ok (.ok a), s)
  | .error .undefined =>
    if guarded && s.callManager = .controlled then (.error .terminate, s)
    else (.ok (.error .memory_fault), s)
  | .error e => (.error e, s)

/-- The signal that has ended a call of the library. -/
def signalOf : Except Signal Unit → Option Signal
  | .ok () => none
  | .error signal => some signal

/-- `executeApp` of the controlled caller once it has a handler. -/
def afterHandler (appID : LongID) (app : ArgC Ending) (deferred : ArgC Unit)
    (r : Except Exn (CallResourceHandler × CallResourceHandler)) : ArgC Int := fun s =>
  match r with
  | .error (.asceeError msg code) => reportError msg code s.currentCall.appID s
  | .error e => (.error e, s)
  | .ok (prevResources, handler) => callWithResources appID app deferred prevResources handler s

namespace Asks
variable {α β : Type} {f : Heap → ArgC α}

theorem pure (a : α) : Asks fun _ => (Pure.pure a : ArgC α) := fun _ => .of_frame fun _ => rfl

theorem throw (e : Exn) : Asks fun _ => (MonadExcept.throw e : ArgC α) :=
  fun _ => .of_frame fun _ => rfl

theorem liftExcept (r : Except Exn α) : Asks fun _ => ArgC.liftExcept r :=
  fun _ => .of_frame fun _ => rfl

theorem raise (message : String) (code : StatusCode) :
    Asks fun _ => (ArgC.raise message code : ArgC α) := fun _ => .of_frame fun _ => rfl

theorem bind {g : α → Heap → ArgC β} (hf : Asks f) (hg : ∀ a, Asks (g a)) :
    Asks fun heap => f heap >>= fun a => g a heap := by
  intro s
  have hall : ∀ r : Except Exn α, Asks fun heap t => match r with
      | .error e => (Except.error e, t)
      | .ok a => g a heap t := by
    intro r
    cases r with
    | error e => exact throw e
    | ok a => exact hg a
  refine ((hf s).andThen hall).congr fun heap t _ => ?_
  rw [ArgC.bind_apply]
  obtain ⟨e | a, t'⟩ := f heap t <;> rfl

theorem discard (hf : Asks f) : Asks fun heap => (Functor.discard (f heap) : ArgC PUnit) :=
  hf.bind fun _ => pure PUnit.unit

theorem ite {c : Prop} [Decidable c] {g : Heap → ArgC α} (hf : Asks f) (hg : Asks g) :
    Asks fun heap => if c then f heap else g heap := by
  split
  · exact hf
  · exact hg

/-- An operation of the modifier. -/
theorem heapOp (op : Op) : Asks fun heap => ArgC.heapOp heap op := by
  intro s next
  refine ⟨.step op fun r => next r { s with heapModifier := (s.heapModifier.exec emptyHeap op).2 },
    fun heap t ht => ⟨_, ⟨?_, ?_⟩, rfl⟩⟩
  · exact ht.modifier.exec_sameSizes emptyHeap heap op
  · rw [ht.rest]
    rfl

/-! ## The library -/

section
variable {n offset : Nat}

theorem load : Asks fun heap => ArgC.load heap n offset := by
  refine (heapOp (.access (.load offset 0 n))).bind fun v => ?_
  cases v with
  | bytes content => exact pure (leNat content)
  | _ => exact throw .undefined

theorem store (value : Nat) : Asks fun heap => ArgC.store heap n offset value :=
  (heapOp (.access (.store offset 0 (leBytes n value)))).bind fun _ => pure ()

theorem isValid (size : Nat) : Asks fun heap => ArgC.isValid heap offset size := by
  refine (heapOp (.access (.isValid offset size))).bind fun v => ?_
  cases v with
  | bool b => exact pure b
  | _ => exact throw .undefined

theorem loadChunk (accountID localID : LongID) :
    Asks fun heap => ArgC.loadChunk heap accountID localID :=
  (heapOp (.loadChunk accountID localID)).bind fun _ => pure ()

/-- The size of a block is no content. -/
theorem blockSize : Asks fun _ => ArgC.blockSize offset := by
  intro s
  have hsize : ∀ t : Session, ArgC.blockSize offset t = ((ArgC.blockSize offset t).1, t) := by
    intro t
    unfold ArgC.blockSize
    split
    · rfl
    · split <;> rfl
  refine AsksAt.congr (f := fun _ => ArgC.liftExcept (ArgC.blockSize offset s).1) (liftExcept _ s)
    fun heap t ht => ?_
  rw [hsize t]
  refine congrArg (·, t) ?_
  unfold ArgC.blockSize
  rw [← ht.modifier.currentChunk]
  cases s.heapModifier.currentChunk with
  | none => rfl
  | some p =>
    simp only
    obtain ⟨h1, h2⟩ | ⟨c, c', h1, h2, hc⟩ := ht.modifier.maps.get p
    · rw [h1, h2]
    · rw [h1, h2]
      exact (hc.getAccessBlock offset).symm

theorem loadIdentifier : Asks fun heap => ArgC.loadIdentifier heap offset := by
  refine blockSize.bind fun size => (heapOp (.access (.load offset 0 size))).bind fun v => ?_
  cases v with
  | bytes content => exact liftExcept _
  | _ => exact throw .undefined

theorem loadAccountChunk (accID localID : LongID) :
    Asks fun heap => ArgC.loadAccountChunk heap accID localID :=
  (raise _ _).ite (loadChunk accID localID)

theorem enterArea : Asks fun _ => ArgC.enterArea := by
  refine fun s => .of_frame fun m => ?_
  unfold ArgC.enterArea
  simp only
  split
  · rfl
  · split <;> rfl

theorem exitArea : Asks fun _ => Argennon.exitArea := by
  refine fun s => .of_frame fun m => ?_
  unfold Argennon.exitArea ArgC.exitArea
  simp only
  split <;> rfl

theorem pScan (start stop : String) (outcome : ArgC.PatternMatch) :
    Asks fun _ => ArgC.pScan start stop outcome := by
  cases outcome with
  | found => exact pure ()
  | noStart => exact raise _ _
  | noEnd => exact raise _ _
  | parseError what => exact raise _ _

theorem verify (msg : String) (issuer : LongID) (sigIndex : Int) :
    Asks fun _ => ArgC.verify msg issuer sigIndex :=
  fun _ => .of_frame fun _ => rfl

theorem verifyAndInvalidate (msg : String) (issuer : LongID) (sigIndex : Int) :
    Asks fun _ => ArgC.verifyAndInvalidate msg issuer sigIndex :=
  fun _ => .of_frame fun _ => rfl

theorem sign (msg : String) (issuer : LongID) : Asks fun _ => ArgC.sign msg issuer :=
  fun _ => .of_frame fun _ => rfl

theorem consumeNonce (index nonce : Nat) (issuer spender : LongID) (msg : String) (sigIndex : Int) :
    Asks fun heap => ArgC.consumeNonce heap index nonce issuer spender msg sigIndex := by
  refine (pure false).ite ((liftExcept _).bind fun msg =>
    (verify msg issuer sigIndex).bind fun valid => ?_)
  cases valid with
  | false => exact pure false
  | true => exact (store _).bind fun _ => pure _

theorem verifyWithMultiwayNonce (nonceCount : Nat) (issuer spender : LongID) (msg : String)
    (sigIndex : Int) (invalidate : Bool) :
    Asks fun heap => ArgC.verifyWithMultiwayNonce heap nonceCount issuer spender msg sigIndex
      invalidate :=
  (pure true).ite ((verify msg issuer sigIndex).ite (load.bind fun nonce =>
    consumeNonce _ nonce issuer spender msg sigIndex))

theorem verifyByApp (issuer spender : LongID) (msg : String) (sigIndex : Int)
    (invalidateMsg : Bool) :
    Asks fun _ => ArgC.verifyByApp issuer spender msg sigIndex invalidateMsg :=
  (pure true).ite ((verify msg issuer sigIndex).ite ((liftExcept _).bind fun msg =>
    verifyAndInvalidate msg issuer sigIndex))

theorem verifyByKind (decisionNonce : Nat) (issuerAccount spender : LongID) (msg : String)
    (sigIndex : Int) (invalidateMsg : Bool) :
    Asks fun heap => ArgC.verifyByKind heap decisionNonce issuerAccount spender msg sigIndex
      invalidateMsg := by
  have hnonce : ∀ nonceCount, Asks fun heap =>
      ArgC.verifyWithMultiwayNonce heap nonceCount issuerAccount spender msg sigIndex
        invalidateMsg >>= fun valid =>
        Pure.pure (valid, some ArgC.keyBalanceIndex) :=
    fun nonceCount => (verifyWithMultiwayNonce nonceCount issuerAccount spender msg sigIndex
      invalidateMsg).bind fun _ => pure _
  have happ : Asks fun _ => ArgC.verifyByApp issuerAccount spender msg sigIndex invalidateMsg >>=
      fun valid =>
        Pure.pure (valid, some decisionNonceSize) :=
    (verifyByApp issuerAccount spender msg sigIndex invalidateMsg).bind fun _ => pure _
  exact happ.ite ((hnonce 5).ite ((hnonce 11).ite ((hnonce 1).ite (pure _))))

/-- The context of the modifier. -/
theorem loadContext (r : Except Exn α) (appID : LongID) :
    Asks fun _ t => (r, t.loadContext appID) :=
  fun s => ((heapOp (.loadContext appID) s).andThen fun _ => liftExcept r).congr fun _ _ _ => rfl

theorem withArgContext {body : Heap → LongID → ArgC α}
    (hbody : ∀ caller, Asks fun heap => body heap caller) :
    Asks fun heap => ArgC.withArgContext (body heap) := by
  intro s
  have hcontext := (loadContext (.ok ()) argAppID s).andThen fun _ => hbody s.currentCall.appID
  refine (hcontext.andThen fun r => loadContext r s.currentCall.appID).congr fun heap t ht => ?_
  unfold ArgC.withArgContext
  rw [← ht.currentCall]
  rfl

theorem verifyByAccount (issuerAccount : LongID) (msg : String) (sigIndex : Int)
    (invalidateMsg : Bool) :
    Asks fun heap => ArgC.verifyByAccount heap issuerAccount msg sigIndex invalidateMsg := by
  refine withArgContext fun spender => (loadChunk issuerAccount nonceChunkLocalID).bind fun _ =>
    (isValid nonce16Size).bind fun valid => ?_
  cases valid with
  | false => exact pure _
  | true => exact load.bind fun decisionNonce =>
    verifyByKind decisionNonce issuerAccount spender msg sigIndex invalidateMsg

theorem checkOwner (signer issuerAccount : LongID) :
    Asks fun heap => ArgC.checkOwner heap signer issuerAccount := by
  refine (loadChunk issuerAccount nonceChunkLocalID).bind fun _ =>
    (isValid nonce16Size).bind fun valid => ?_
  cases valid with
  | false => exact raise _ _
  | true =>
    refine load.bind fun decisionNonce =>
      (raise _ _).ite (loadIdentifier.bind fun owner => (raise _ _).ite (pure _))

theorem virtualSign (issuerAccount : LongID) (msg : String) :
    Asks fun heap => ArgC.virtualSign heap issuerAccount msg :=
  withArgContext fun signer => (checkOwner signer issuerAccount).bind fun _ =>
    (sign msg issuerAccount).bind fun _ => pure ()

end

/-- A library call. -/
theorem lib (call : LibCall) : Asks fun heap => call.exec heap := by
  cases call with
  | load_int64 offset => exact load.discard
  | store_int64 offset value => exact store _
  | store_int16 offset value => exact store _
  | store_pk offset index value => exact (heapOp _).discard
  | add_int64_to offset amount => exact (heapOp _).discard
  | resize_chunk newSize => exact (heapOp _).discard
  | get_chunk_size => exact (heapOp _).discard
  | invalid offset size => exact (isValid _).discard
  | load_local_chunk id => exact loadChunk _ _
  | load_account_chunk accID localID => exact loadAccountChunk accID localID
  | enter_area => exact enterArea
  | exit_area => exact exitArea
  | append maxSize content str => exact (liftExcept _).discard
  | p_scan start stop outcome => exact pScan start stop outcome
  | scan_int64 inRange => exact liftExcept _
  | scan_float64 inRange => exact liftExcept _
  | safe_addf64 a b => exact liftExcept _
  | exact_addf64 a b => exact liftExcept _
  | revert msg => exact raise _ _
  | verify_by_acc_once issuerAccount msg sigIndex =>
    exact (verifyByAccount issuerAccount msg sigIndex true).discard
  | verify_by_acc issuerAccount msg sigIndex =>
    exact (verifyByAccount issuerAccount msg sigIndex false).discard
  | virtual_sign issuerAccount msg => exact virtualSign issuerAccount msg

/-! ## Calls -/

section
variable {app : Heap → ArgC Ending} {deferred : Heap → ArgC Unit}

theorem callLib (guarded : Bool) (hf : Asks f) :
    Asks fun heap => ExceptT.run (Argennon.callLib guarded (f heap)) := by
  have hall : ∀ r, Asks fun _ => afterLib guarded (r : Except Exn α) := by
    rintro (e | a) s
    · refine .of_frame fun m => ?_
      unfold afterLib
      cases e with
      | undefined => simp only; split <;> rfl
      | _ => rfl
    · exact .of_frame fun m => rfl
  refine fun s => ((hf s).andThen hall).congr fun heap t _ => ?_
  unfold ExceptT.run Argennon.callLib afterLib
  obtain ⟨e | a, t'⟩ := f heap t
  · cases e <;> rfl
  · rfl

theorem libCall (call : LibCall) : Asks fun heap => Argennon.libCall heap call := by
  have hsignal : ∀ r : Except Signal Unit, Asks fun _ =>
      (Pure.pure (signalOf r) : ArgC (Option Signal)) :=
    fun _ => pure _
  refine fun s => (((callLib call.guarded (lib call)).bind hsignal) s).congr fun heap t _ => ?_
  rw [libCall_eq, ArgC.bind_apply]
  unfold ExceptT.run
  obtain ⟨e | signal | u, t'⟩ := Argennon.callLib call.guarded (call.exec heap) t <;> rfl

theorem checkApp (appID : LongID) : Asks fun _ => Argennon.checkApp appID := by
  refine fun s => .of_frame fun m => ?_
  unfold Argennon.checkApp
  simp only
  split <;> rfl

theorem callDispatcher (happ : Asks app) : Asks fun heap => Argennon.callDispatcher (app heap) := by
  have hall : ∀ r, Asks fun _ => Argennon.callDispatcher (ArgC.liftExcept r) := by
    rintro (e | ending) s
    · refine .of_frame fun m => ?_
      cases e <;> rfl
    · refine .of_frame fun m => ?_
      cases ending with
      | signalled signal => rfl
      | _ =>
        unfold Argennon.callDispatcher ArgC.liftExcept
        simp only
        split <;> rfl
  exact fun s => ((happ s).andThen hall).congr fun _ _ _ => rfl

theorem callInContext (happ : Asks app) (hdeferred : Asks deferred) :
    Asks fun heap => Argennon.callInContext (app heap) (deferred heap) :=
  (callDispatcher happ).bind fun ret => exitArea.bind fun _ => hdeferred.bind fun _ => pure ret

/-- The context of another call. -/
theorem setContext (r : Except Exn α) (callInfo : CallContext) :
    Asks fun _ t => (r, { t.loadContext callInfo.appID with currentCall := callInfo }) := by
  have hset : ∀ r : Except Exn α, Asks fun _ t => (r, { t with currentCall := callInfo }) :=
    fun _ _ => .of_frame fun _ => rfl
  exact fun s => ((loadContext r callInfo.appID s).andThen hset).congr fun _ _ _ => rfl

theorem withContext (appID : LongID) {body : Heap → ArgC α} (hbody : Asks body) :
    Asks fun heap => Argennon.withContext appID (body heap) := by
  intro s
  by_cases hself : s.currentCall.appID = appID
  · refine AsksAt.congr (throw (.executorError "calling self" .invalid_operation appID) s)
      fun heap t ht => ?_
    unfold Argennon.withContext enterContext
    rw [ht.currentCall, if_pos hself]
    rfl
  · have hleave : ∀ r : Except Exn α, Asks fun _ t => (r, leaveContext s.currentCall t) :=
      fun r s' =>
      ((exitArea s').andThen fun _ => setContext r s.currentCall).congr fun _ _ _ => rfl
    have henter := (setContext (.ok ()) { appID } s).andThen fun _ => hbody
    refine (henter.andThen hleave).congr fun heap t ht => ?_
    unfold Argennon.withContext enterContext
    rw [← ht.currentCall] at hself ⊢
    rw [if_neg hself]
    rfl

theorem dependantCall (appID : LongID) (happ : Asks app) (hdeferred : Asks deferred) :
    Asks fun heap => Argennon.dependantCall appID (app heap) (deferred heap) :=
  (checkApp appID).bind fun _ => withContext appID (callInContext happ hdeferred)

theorem reportError (msg : String) (code : StatusCode) (app : LongID) :
    Asks fun _ => Argennon.reportError msg code app := by
  refine fun s => .of_frame fun m => ?_
  unfold Argennon.reportError
  split <;> rfl

theorem endThread (r : Except Exn Int) : Asks fun _ => Argennon.endThread r := by
  refine fun s => .of_frame fun m => ?_
  unfold Argennon.endThread Argennon.reportError
  rcases r with e | ret
  · cases e with
    | executorError message code app =>
      simp only
      generalize toHttpResponse message code app = response
      cases response <;> rfl
    | _ => rfl
  · rfl

theorem threadStart (appID : LongID) (happ : Asks app) (hdeferred : Asks deferred) :
    Asks fun heap => Argennon.threadStart appID (app heap) (deferred heap) :=
  fun s => ((dependantCall appID happ hdeferred s).andThen endThread).congr fun _ t _ =>
    threadStart_eq appID _ _ t

theorem endVersion (caller : LongID) (heapVersion : Nat) (completed : Bool) :
    Asks fun _ => Argennon.endVersion caller heapVersion completed := by
  cases completed with
  | true => exact loadContext (.ok ()) caller
  | false =>
    intro s
    have hall : ∀ r : Except Exn Value, Asks fun _ t => (r.map fun _ => (), t.loadContext caller) :=
      fun r => loadContext _ caller
    refine ((heapOp (.restoreVersion heapVersion) s).andThen hall).congr fun heap t _ => ?_
    unfold Argennon.endVersion ArgC.heapOp RestrictedModifier.exec restoreVersion
    simp only [Bool.false_eq_true, if_false]
    split <;> rfl

theorem destroyHandler (prevResources handler : CallResourceHandler) (completed : Bool) :
    Asks fun _ => Argennon.destroyHandler prevResources handler completed := by
  have hgone : Asks fun _ t => (Except.ok (),
      { t with
        currentResources := .live prevResources
        failureManager := t.failureManager.completeInvocation }) :=
    fun _ => .of_frame fun _ => rfl
  exact fun s => ((hgone s).andThen fun _ =>
    endVersion handler.caller handler.heapVersion completed).congr fun _ _ _ => rfl

theorem newHandler (forwardedGas : Byte) : Asks fun _ => Argennon.newHandler forwardedGas := by
  intro s
  cases hres : s.currentResources with
  | dangling =>
    refine AsksAt.congr (throw .undefined s) fun heap t ht => ?_
    unfold Argennon.newHandler
    rw [ht.rest]
    simp only [hres]
    rfl
  | live prev =>
    by_cases hgas : forwardedGasOf prev forwardedGas ≤ minClocks
    · refine AsksAt.congr (throw (.asceeError "forwarded gas is too low" .invalid_operation) s)
        fun heap t ht => ?_
      unfold Argennon.newHandler
      rw [ht.rest]
      simp only [hres, if_pos hgas]
      rfl
    -- the handler has the version that is not saved yet
    · have htake : ∀ r : Except Exn Value, Asks fun _ t => match r with
          | .error e => (Except.error e, { t with
              failureManager := s.failureManager.nextInvocation
              invocations := invocationOf prev forwardedGas s :: s.invocations
              currentResources := .dangling })
          | .ok _ => (.ok (chargedFor prev forwardedGas, handlerFor prev forwardedGas s), { t with
              failureManager := s.failureManager.nextInvocation
              invocations := invocationOf prev forwardedGas s :: s.invocations
              currentResources := .live (handlerFor prev forwardedGas s) }) := by
        rintro (e | v) s' <;> exact .of_frame fun _ => rfl
      refine ((heapOp .saveVersion s).andThen htake).congr fun heap t ht => ?_
      have hinvocation : invocationOf prev forwardedGas t = invocationOf prev forwardedGas s := by
        unfold invocationOf
        rw [ht.modifier.currentVersion, ht.rest]
      have hhandler : handlerFor prev forwardedGas t = handlerFor prev forwardedGas s := by
        unfold handlerFor
        rw [ht.modifier.currentVersion, ht.rest]
      have hresources : t.currentResources = .live prev := by rw [ht.rest]; exact hres
      have htaken : takeGas prev forwardedGas t = { t with
          failureManager := s.failureManager.nextInvocation
          invocations := invocationOf prev forwardedGas s :: s.invocations } := by
        unfold takeGas
        rw [hinvocation, ht.rest]
      unfold Argennon.newHandler
      rw [hresources]
      simp only [if_neg hgas, htaken, hhandler]
      unfold ArgC.heapOp RestrictedModifier.exec saveVersion
      by_cases hversion : t.heapModifier.currentVersion = maxVersion
      · simp only [if_pos hversion]
        rfl
      · simp only [if_neg hversion]
        rfl

theorem callWithResources (appID : LongID) (happ : Asks app) (hdeferred : Asks deferred)
    (prevResources handler : CallResourceHandler) :
    Asks fun heap => Argennon.callWithResources appID (app heap)
      (deferred heap) prevResources handler := by
  intro s
  cases hstack : s.failureManager.getStackSize handler.id with
  | error e =>
    have hthrow : AsksAt s fun _ => (MonadExcept.throw e : ArgC Int) := throw e s
    cases e with
    | asceeError msg code =>
      have hfailed := (destroyHandler prevResources handler false).bind fun _ =>
        reportError msg code s.currentCall.appID
      refine (hfailed s).congr fun heap t ht => ?_
      unfold Argennon.callWithResources
      rw [ht.currentCall, ht.rest]
      simp only [hstack]
    | _ =>
      refine hthrow.congr fun heap t ht => ?_
      unfold Argennon.callWithResources
      rw [ht.rest]
      simp only [hstack]
      rfl
  | ok size =>
    have hcall := (threadStart appID happ hdeferred).bind fun ret =>
      (destroyHandler prevResources handler (ret < 400)).bind fun _ => pure ret
    refine (hcall s).congr fun heap t ht => ?_
    unfold Argennon.callWithResources
    rw [ht.rest]
    simp only [hstack]

theorem controlled (forwardedGas : Byte) (appID : LongID) (happ : Asks app)
    (hdeferred : Asks deferred) :
    Asks fun heap => ControlledCaller.executeApp forwardedGas appID (app heap) (deferred heap) := by
  have hall : ∀ r, Asks fun heap => afterHandler appID (app heap) (deferred heap) r := by
    rintro (e | ⟨prevResources, handler⟩)
    · cases e with
      | asceeError msg code =>
        exact fun s => (reportError msg code s.currentCall.appID s).congr fun heap t ht => by
          unfold afterHandler; rw [ht.currentCall]
      | _ => exact throw _
    · exact callWithResources appID happ hdeferred prevResources handler
  refine fun s => ((newHandler forwardedGas s).andThen hall).congr fun heap t _ => ?_
  unfold ControlledCaller.executeApp afterHandler
  obtain ⟨e | ⟨prevResources, handler⟩, t'⟩ := Argennon.newHandler forwardedGas t
  · cases e <;> rfl
  · rfl

/-- The end of an optimistic call. -/
theorem finish (caller : LongID) (heapVersion : Nat) (r : Except Exn Int) :
    Asks fun _ => (OpenCall.optimistic caller heapVersion).finish r := by
  unfold OpenCall.finish
  rcases r with e | ret
  · simp only
    split
    · exact (endVersion _ _ false).bind fun _ => throw _
    · exact throw e
  · exact (endVersion _ _ _).bind fun _ => pure ret

theorem optimistic (appID : LongID) (happ : Asks app) (hdeferred : Asks deferred) :
    Asks fun heap => OptimisticCaller.executeApp appID (app heap) (deferred heap) := by
  intro s
  have hcalled : Asks fun heap t =>
      (OpenCall.optimistic s.currentCall.appID s.heapModifier.currentVersion).finish
        (Argennon.dependantCall appID (app heap) (deferred heap) t).1
          (Argennon.dependantCall appID (app heap) (deferred heap) t).2 :=
    fun s' => (dependantCall appID happ hdeferred s').andThen (finish _ _)
  have hall (r : Except Exn Value) :=
    (liftExcept (r.mapError optimisticError)).bind fun _ => hcalled
  refine ((heapOp .saveVersion s).andThen hall).congr fun heap t ht => ?_
  unfold OptimisticCaller.executeApp ArgC.heapOp RestrictedModifier.exec saveVersion
  rw [ht.modifier.currentVersion, ← ht.currentCall]
  by_cases hversion : t.heapModifier.currentVersion = maxVersion
  · simp only [if_pos hversion]
    rfl
  · simp only [if_neg hversion]
    conv_rhs => rw [ArgC.bind_apply]
    change _ = OpenCall.finish (Argennon.dependantCall appID (app heap) (deferred heap) _).1 _ _
    generalize Argennon.dependantCall appID (app heap) (deferred heap) _ = r
    obtain ⟨e | ret, t'⟩ := r <;> rfl

theorem callApp (forwardedGas : Byte) (appID : LongID) (happ : Asks app)
    (hdeferred : Asks deferred) :
    Asks fun heap => Argennon.callApp forwardedGas appID (app heap) (deferred heap) := by
  intro s
  cases hmanager : s.callManager with
  | controlled =>
    refine (controlled forwardedGas appID happ hdeferred s).congr fun heap t ht => ?_
    unfold Argennon.callApp
    rw [ht.rest]
    simp only [hmanager]
  | optimistic =>
    refine (optimistic appID happ hdeferred s).congr fun heap t ht => ?_
    unfold Argennon.callApp
    rw [ht.rest]
    simp only [hmanager]

end

end Asks

/-! ## Runs -/

/-- The code of an application, and the calls that it defers. -/
theorem Run.asks (run : Run) :
    (Asks fun heap => run.app heap) ∧ Asks fun heap => run.deferred heap := by
  induction run with
  | ending e => exact ⟨.pure e, .pure ()⟩
  | lib call rest ih =>
    refine ⟨(Asks.libCall call).bind fun signal => ?_, ih.2⟩
    cases signal with
    | some signal => exact .pure _
    | none => exact ih.1
  | invoke forwardedGas appID callee rest ihCallee ihRest =>
    exact ⟨(Asks.callApp forwardedGas appID ihCallee.1 ihCallee.2).bind fun _ => ihRest.1, ihRest.2⟩
  | defer appID callee rest ihCallee ihRest =>
    exact ⟨ihRest.1, (Asks.dependantCall appID ihCallee.1 ihCallee.2).bind fun _ => ihRest.2⟩

/-! ## Code -/

namespace AppCode

/-- The functions of the library, with what they return. -/
inductive Library : {α : Type} → (Heap → ArgC α) → Prop where
  | call (call : LibCall) : Library fun heap => call.exec heap
  | load (n offset : Nat) : Library fun heap => ArgC.load heap n offset
  | isValid (offset size : Nat) : Library fun heap => ArgC.isValid heap offset size
  | getChunkSize : Library fun heap => ArgC.heapOp heap (.access .getChunkSize)
  | verifyByAccount (issuerAccount : LongID) (msg : String) (sigIndex : Int)
    (invalidateMsg : Bool) :
    Library fun heap => ArgC.verifyByAccount heap issuerAccount msg sigIndex invalidateMsg
  /-- The functions that use neither the heap nor the session. -/
  | value {α : Type} (r : Except Exn α) : Library fun _ => ArgC.liftExcept r
  /-- A function whose value is converted. -/
  | map {α β : Type} {f : Heap → ArgC α} (h : Library f) (g : α → β) : Library fun heap =>
    f heap >>= fun a => pure (g a)

/-- Code that calls the library and other applications, and goes on with what they return. -/
inductive OfLibrary : {α : Type} → (Heap → AppCode α) → Prop where
  | pure {α : Type} (a : α) : OfLibrary fun _ => Pure.pure a
  | lib {α : Type} {f : Heap → ArgC α} (guarded : Bool) (h : Library f) : OfLibrary fun heap =>
    callLib guarded (f heap)
  | invoke {callee : Heap → AppCode Int} (forwardedGas : Byte) (appID : LongID)
    (h : OfLibrary callee) :
    OfLibrary fun heap => ExceptT.lift
      (callApp forwardedGas appID (callee heap).ending (Pure.pure ()))
  | bind {α β : Type} {f : Heap → AppCode α} {g : α → Heap → AppCode β} (hf : OfLibrary f)
    (hg : ∀ a, OfLibrary (g a)) :
    OfLibrary fun heap => f heap >>= fun a => g a heap

theorem Library.asks {α : Type} {f : Heap → ArgC α} (h : Library f) : Asks f := by
  induction h with
  | call call => exact Asks.lib call
  | load n offset => exact Asks.load
  | isValid offset size => exact Asks.isValid size
  | getChunkSize => exact Asks.heapOp _
  | verifyByAccount issuerAccount msg sigIndex invalidateMsg =>
    exact Asks.verifyByAccount issuerAccount msg sigIndex invalidateMsg
  | value r => exact Asks.liftExcept r
  | map h g ih => exact ih.bind fun a => Asks.pure (g a)

/-- The code ends when it has returned, or when a signal has ended it. -/
theorem asks_ending {code : Heap → AppCode Int} (h : Asks fun heap => ExceptT.run (code heap)) :
    Asks fun heap => (code heap).ending := by
  have hending : ∀ r : Except Signal Int, Asks fun _ =>
      AppCode.ending (ExceptT.mk (Pure.pure r)) := by
    rintro (signal | ret)
    · exact Asks.pure _
    · exact Asks.pure _
  refine fun s => ((h.bind hending) s).congr fun heap t _ => ?_
  rw [ArgC.bind_apply]
  unfold AppCode.ending ExceptT.run
  obtain ⟨e | signal | ret, t'⟩ := code heap t <;> rfl

theorem OfLibrary.asks {α : Type} {code : Heap → AppCode α} (h : OfLibrary code) :
    Asks fun heap => ExceptT.run (code heap) := by
  induction h with
  | pure a => exact Asks.pure _
  | lib guarded h => exact Asks.callLib guarded h.asks
  | invoke forwardedGas appID h ih =>
    exact (Asks.callApp forwardedGas appID (asks_ending ih) (Asks.pure ())).bind fun ret =>
      Asks.pure _
  | bind hf hg ihf ihg =>
    refine Asks.bind ihf fun r => ?_
    cases r with
    | error signal => exact Asks.pure _
    | ok a => exact ihg a

end AppCode

/-- What is called first in the session of a request is one program for every heap. -/
theorem AppRequest.exists_program_of_asks (req : AppRequest) {f : Heap → ArgC Int} (h : Asks f) :
    ∃ program : Program, ∀ heap, program.run heap req.modifier =
      ((f heap req.rootSession).1, (f heap req.rootSession).2.heapModifier) := by
  obtain ⟨program, h⟩ := h req.rootSession fun r _ => .ending r
  refine ⟨program, fun heap => ?_⟩
  have hself : req.rootSession.SameShape req.rootSession :=
    ⟨⟨rfl, rfl, rfl, rfl, List.forall₂_same.mpr fun _ _ =>
      ⟨rfl, List.forall₂_same.mpr fun c _ => SameSizes.refl c⟩⟩, rfl⟩
  obtain ⟨-, -, hrun⟩ := h heap req.rootSession hself
  exact hrun

/-- The program of an application that is given by its code. -/
theorem AppRequest.exists_program_of_code (req : AppRequest) {code : Heap → AppCode Int}
    (h : AppCode.OfLibrary code) :
    ∃ program : Program, ∀ heap, program.run heap req.modifier =
      ((req.callCode (code heap)).1, (req.callCode (code heap)).2.heapModifier) :=
  req.exists_program_of_asks
    (Asks.callApp 255 req.calledAppID (AppCode.asks_ending h.asks) (Asks.pure ()))

/-- **Requests are programs.** What the application of a request does is one program over the
operations of the modifier, for every heap: when its calls are given as a run, and when it is given
by its code, which goes on with what the library returns. -/
theorem AppRequest.exists_program (req : AppRequest) :
    (∀ run : Run, ∃ program : Program, ∀ heap, program.Represents heap req run) ∧
      ∀ code : Heap → AppCode Int, AppCode.OfLibrary code → ∃ program : Program, ∀ heap,
        program.run heap req.modifier =
          ((req.callCode (code heap)).1, (req.callCode (code heap)).2.heapModifier) :=
  ⟨fun run => req.exists_program_of_asks (Asks.callApp 255 req.calledAppID run.asks.1 run.asks.2),
    fun _ h => req.exists_program_of_code h⟩

/-- Code that stores the integer after the one that it has loaded. -/
def countingCode (heap : Heap) : AppCode Int := do
  callLib true (LibCall.exec heap (.load_local_chunk 0))
  let n ← callLib true (ArgC.load heap 8 0)
  callLib true (LibCall.exec heap (.store_int64 0 (n + 1)))
  pure 200

theorem countingCode_ofLibrary : AppCode.OfLibrary countingCode :=
  .bind (.lib true (.call _)) fun _ => .bind (.lib true (.load 8 0)) fun n =>
    .bind (.lib true (.call (.store_int64 0 (n + 1)))) fun _ => .pure 200

theorem AppRequest.exists_program_counting : ∃ program : Program, ∀ heap,
    program.run heap plainRequest.modifier =
      ((plainRequest.callCode (countingCode heap)).1,
        (plainRequest.callCode (countingCode heap)).2.heapModifier) :=
  plainRequest.exists_program.2 countingCode countingCode_ofLibrary

end Argennon
