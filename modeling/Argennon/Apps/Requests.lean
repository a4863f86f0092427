import Argennon.Apps.Transfer

/- What a request of the ARG application does to the heap.

   The dispatcher has a branch for the transfers and one for the new accounts. A request that the
   executor ends without an exception has failed and changed nothing, or it is a step of `ArgStep`:
   a transfer, a new account, or nothing. -/
namespace Argennon

/-- What `create_normal_account` does to the chunk of the account. -/
structure Created (pk : ArgApp.PublicKey) (chunk chunk' : Chunk) : Prop where
  absent : chunk.chunkSize < nonce16Size
  chunkSize : chunk'.chunkSize = ArgC.keyBalanceIndex
  length : chunk'.content.length = chunk.content.length
  fits : ArgC.keyBalanceIndex ≤ chunk.content.length
  content : ∀ i, i < chunk'.chunkSize → chunk'.content[i]? =
    (writeAt (writeAt chunk.content 0 (leBytes nonce16Size minNonce)) decisionNonceSize pk.val)[i]?
  zeroTail : chunk.ZeroTail → chunk'.ZeroTail

/-- What the dispatcher has found in the text of a request, and what it has done. -/
inductive ArgStep (messages : List SignedMessage) (text : ArgApp.RequestText) (heap heap' : Heap) :
    Int → Prop where
  | transfer (hmethod : text.method.value = "PATCH")
      (h : Transferred heap heap' messages text.account.value text.recipient.value
        text.amount.value text.sigIndex.value.toInt16) :
        ArgStep messages text heap heap' 200
  | create (hmethod : text.method.value = "PUT")
      (h : Created text.pk.value (heap (accountChunk text.account.value))
        (heap' (accountChunk text.account.value)))
      (hothers : ∀ id, id ≠ accountChunk text.account.value → heap' id = heap id) :
        ArgStep messages text heap heap' 200
  | taken (hmethod : text.method.value = "PUT")
      (h : nonce16Size ≤ (heap (accountChunk text.account.value)).chunkSize)
      (hsame : heap' = heap) : ArgStep messages text heap heap' 300
  | other (hmethod : text.method.value ≠ "PATCH" ∧ text.method.value ≠ "PUT")
      (hsame : heap' = heap) : ArgStep messages text heap heap' 200

/-- A scanner that finds something changes nothing. -/
theorem ArgC.pScan_ok {start stop : String} {outcome : ArgC.PatternMatch} {s s' : Session}
    (h : ArgC.pScan start stop outcome s = (.ok (), s')) : s' = s := by
  cases outcome with
  | found => exact (Prod.mk.inj h).2.symm
  | noStart => cases h
  | noEnd => cases h
  | parseError what => cases h

namespace ArgApp
variable {heap : Heap} {m₀ : AppMap AccessBlock} {views : FullID → ChunkView} {s s' : Session}

/-! ## The steps -/

theorem pScan_ok {α : Type} {start stop : String} {scan : Scan α} {a : α}
    (hrun : pScan start stop scan s = (.ok (.ok a), s')) :
    a = scan.value ∧ s' = s := by
  obtain ⟨_, t, hscan, hvalue⟩ := ArgC.bind_eq_ok (AppCode.callLib_eq_ok hrun)
  obtain ⟨ha, ht⟩ := Prod.mk.inj hvalue
  exact ⟨(Except.ok.inj ha).symm, ht.symm.trans (ArgC.pScan_ok hscan)⟩

theorem pScanInt16_ok {start stop : String} {scan : Scan Int64} {a : Int16}
    (hrun : pScanInt16 start stop scan s = (.ok (.ok a), s')) :
    a = scan.value.toInt16 ∧ s' = s := by
  obtain ⟨_, t, hscan, hvalue⟩ := ArgC.bind_eq_ok (AppCode.callLib_eq_ok hrun)
  obtain ⟨ha, ht⟩ := Prod.mk.inj hvalue
  exact ⟨(Except.ok.inj ha).symm, ht.symm.trans (ArgC.pScan_ok hscan)⟩

/-- The stores of `create_normal_account`. -/
theorem createNormalAccount_sees (h : InContext argAppID heap m₀ (fun id => .initial (heap id)) s)
    (hready : Ready heap m₀)
    {address : LongID} {pk : PublicKey} {created : Bool}
    (hrun : createNormalAccount heap address pk s = (.ok (.ok created), s')) :
    ∃ c₀ v, c₀ ∈ m₀.chunkInfos ∧ c₀.ptr = accountChunk address ∧
      (created = false → nonce16Size ≤ (heap c₀.ptr).chunkSize ∧ v = .initial (heap c₀.ptr)) ∧
      (created = true → ∀ chunk', WrittenBack (heap c₀.ptr) c₀ v chunk' →
        Created pk (heap c₀.ptr) chunk') ∧
      InContext argAppID heap m₀ (Function.update (fun id => .initial (heap id)) c₀.ptr v) s' ∧
      s'.heapModifier.currentVersion = s.heapModifier.currentVersion := by
  unfold createNormalAccount at hrun
  obtain ⟨_, s₁, hload, hrest₁⟩ := AppCode.bind_eq_ok hrun
  obtain ⟨hversion₁, c₀, hptr, h₁⟩ := loadAccountChunk_sees h hready.laid hload
  obtain ⟨absent, s₂, hinvalid, hrest₂⟩ := AppCode.bind_eq_ok hrest₁
  have hinvalid : invalid heap ((0 : Nat) : Int) ((2 : Nat) : Int) s₁ = _ := hinvalid
  obtain ⟨h₂, hversion₂, habsent⟩ := invalid_sees h₁ hready.laid (by decide) (by decide) hinvalid
  cases absent with
  | false =>
    obtain ⟨hcreated, hs⟩ := Prod.mk.inj (hrest₂ : (pure false : AppCode Bool) s₂ = _)
    obtain rfl := Except.ok.inj (Except.ok.inj hcreated)
    refine ⟨c₀, .initial (heap c₀.ptr), h₁.mem, hptr, fun _ => ⟨?_, rfl⟩,
      fun htrue => absurd htrue (by decide), ?_, ?_⟩
    · have hsize : 0 + 2 ≤ (heap c₀.ptr).getsize := by simpa [ChunkView.initial] using habsent
      exact hsize
    · rw [Function.update_eq_self, ← hs]
      exact h₂.toInContext
    · rw [← hs, hversion₂, hversion₁]
  | true =>
    have hrest₃ : (do
        AppCode.call heap (.resize_chunk (2 + publicKeySize))
        AppCode.call heap (.store_int16 0 8)
        AppCode.call heap (.store_pk 0 2 pk.val)
        pure true : AppCode Bool) s₂ = (.ok (.ok created), s') := hrest₂
    obtain ⟨_, s₃, hresize, hrest₄⟩ := AppCode.bind_eq_ok hrest₃
    have hresize : resizeIf heap true ((ArgC.keyBalanceIndex : Nat) : Int) s₂ = _ := hresize
    obtain ⟨hversion₃, h₃⟩ := resizeIf_sees h₂ hready.laid (by decide) hresize
    rw [if_pos rfl] at h₃
    obtain ⟨_, s₄, hnonce, hrest₅⟩ := AppCode.bind_eq_ok hrest₄
    have hnonce : ArgC.store heap 2 0 minNonce s₃ = (.ok (), s₄) := AppCode.callLib_eq_ok hnonce
    obtain ⟨hmaps₄, b₀, hb₀, hwrite, hnarrow, h₄⟩ := h₃.store hready.laid hnonce
    rw [Function.update_idem, Function.update_self] at h₄
    obtain ⟨_, s₅, hkey, hrest₆⟩ := AppCode.bind_eq_ok hrest₅
    have hkey : discard (ArgC.heapOp heap (.access (.store 0 2 pk.val))) s₄ = (.ok (), s₅) :=
      AppCode.callLib_eq_ok hkey
    obtain ⟨hmaps₅, b₁, hb₁, -, hwidth, h₅⟩ := h₄.storeBytes hready.laid hkey
    have hplaced := hready.laid.placed c₀ h₁.mem
    obtain rfl := hplaced.unique hb₀ hb₁
    obtain ⟨hcreated, hs⟩ := Prod.mk.inj (hrest₆ : (pure true : AppCode Bool) s₅ = _)
    obtain rfl := Except.ok.inj (Except.ok.inj hcreated)
    rw [Function.update_idem, Function.update_self] at h₅
    have hfit : 0 + b₀.size ≤ (heap c₀.ptr).content.length := hready.fits c₀ h₁.mem _ hb₀
    rw [pk.property] at hwidth
    have hplain := Access.not_additive_of_write hwrite
    -- the key is stored to the block that has the nonce
    have hshows₁ : ShowsMemory (heap c₀.ptr) c₀
        _ (writeAt (heap c₀.ptr).content (0 + 0) (leBytes nonce16Size minNonce)) :=
      ((ShowsMemory.initial (heap c₀.ptr) c₀).resize ArgC.keyBalanceIndex).store hplaced hb₀ hplain
        (by rw [leBytes_length, Nat.zero_add]; exact hnarrow) hfit
    have hshows := hshows₁.store hplaced hb₀ hplain (by rw [pk.property]; exact hwidth) hfit
    refine ⟨c₀, _, h₁.mem, hptr, fun hfalse => absurd hfalse (by decide), fun _ chunk' hback => ?_,
      by rw [← hs]; exact h₅.toInContext, ?_⟩
    · refine ⟨?_, hback.chunkSize, hback.length, Nat.le_trans hwidth (by omega),
        hshows.persists hback, hback.zeroTail⟩
      have hsize : ¬ 0 + 2 ≤ (heap c₀.ptr).getsize := by simpa [ChunkView.initial] using habsent
      exact Nat.lt_of_not_le hsize
    · rw [← hs, hmaps₅.currentVersion, hmaps₄.currentVersion, hversion₃, hversion₂, hversion₁]

/-- A session that has stored nothing. -/
theorem InContext.unchanged (h : InContext argAppID heap m₀ (fun id => .initial (heap id)) s)
    (hready : Ready heap m₀)
    (hversion : s.heapModifier.currentVersion ≠ 0) {heap' : Heap}
    (hwrite : s.heapModifier.writeToHeap heap = .ok heap') : heap' = heap := by
  obtain ⟨hin, hout⟩ := h.sees.writeToHeap hready hversion hwrite
  funext id
  by_cases hid : id ∈ m₀.chunkInfos.map ChunkInfo.ptr
  · obtain ⟨c, hc, rfl⟩ := List.mem_map.mp hid
    exact (hin c hc).unchanged
  · exact hout id hid

/-! ## The dispatcher -/

section
variable {text : RequestText} {status : Int} {heap' : Heap}

theorem patch_step (h : InContext argAppID heap m₀ (fun id => .initial (heap id)) s)
    (hready : Ready heap m₀)
    (hversion : s.heapModifier.currentVersion ≠ 0) (hmethod : text.method.value = "PATCH")
    (hrun : patch heap text s = (.ok (.ok status), s'))
    (hwrite : s'.heapModifier.writeToHeap heap = .ok heap') :
    ArgStep s.sigManager.messages text heap heap' status := by
  unfold patch at hrun
  obtain ⟨account, s₁, haccount, hrest₁⟩ := AppCode.bind_eq_ok hrun
  obtain ⟨hvalue₁, hs₁⟩ := pScan_ok haccount
  obtain ⟨recipient, s₂, hrecipient, hrest₂⟩ := AppCode.bind_eq_ok hrest₁
  obtain ⟨hvalue₂, hs₂⟩ := pScan_ok hrecipient
  obtain ⟨amount, s₃, hamount, hrest₃⟩ := AppCode.bind_eq_ok hrest₂
  obtain ⟨hvalue₃, hs₃⟩ := pScan_ok hamount
  obtain ⟨sigIndex, s₄, hsigIndex, hrest₄⟩ := AppCode.bind_eq_ok hrest₃
  obtain ⟨hvalue₄, hs₄⟩ := pScanInt16_ok hsigIndex
  obtain ⟨_, s₅, htransfer, hrest₅⟩ := AppCode.bind_eq_ok hrest₄
  rw [hvalue₁, hvalue₂, hvalue₃, hvalue₄, hs₄, hs₃, hs₂, hs₁] at htransfer
  obtain ⟨_, s₆, hresponse, hstatus⟩ := AppCode.bind_eq_ok hrest₅
  obtain ⟨-, hs₆⟩ := append_ok hresponse
  obtain ⟨hret, hs⟩ := Prod.mk.inj (hstatus : (pure 200 : AppCode Int) s₆ = _)
  obtain rfl := Except.ok.inj (Except.ok.inj hret)
  rw [← hs, hs₆] at hwrite
  exact .transfer hmethod (transfer_transferred h hready hversion htransfer hwrite)

theorem put_step (h : InContext argAppID heap m₀ (fun id => .initial (heap id)) s)
    (hready : Ready heap m₀)
    (hversion : s.heapModifier.currentVersion ≠ 0) (hmethod : text.method.value = "PUT")
    (hrun : put heap text s = (.ok (.ok status), s'))
    (hwrite : s'.heapModifier.writeToHeap heap = .ok heap') :
    ArgStep s.sigManager.messages text heap heap' status := by
  unfold put at hrun
  obtain ⟨address, s₁, haddress, hrest₁⟩ := AppCode.bind_eq_ok hrun
  obtain ⟨hvalue₁, hs₁⟩ := pScan_ok haddress
  obtain ⟨pk, s₂, hpk, hrest₂⟩ := AppCode.bind_eq_ok hrest₁
  obtain ⟨hvalue₂, hs₂⟩ := pScan_ok hpk
  obtain ⟨_, s₃, hproof, hrest₃⟩ := AppCode.bind_eq_ok hrest₂
  obtain ⟨-, hs₃⟩ := pScan_ok hproof
  obtain ⟨created, s₄, hcreate, hstatus⟩ := AppCode.bind_eq_ok hrest₃
  rw [hvalue₁, hvalue₂, hs₃, hs₂, hs₁] at hcreate
  obtain ⟨hret, hs⟩ :=
    Prod.mk.inj (hstatus : (pure (if created then 200 else 300) : AppCode Int) s₄ = _)
  obtain rfl := Except.ok.inj (Except.ok.inj hret)
  rw [← hs] at hwrite
  obtain ⟨c, v, hc, hptr, hexists, hcreated, hcontext, hversion'⟩ :=
    createNormalAccount_sees h hready hcreate
  cases created with
  | false =>
    -- the account exists: the request answers 300 and changes nothing
    obtain ⟨hsize, rfl⟩ := hexists rfl
    rw [Function.update_eq_self] at hcontext
    rw [hptr] at hsize
    exact .taken hmethod hsize (InContext.unchanged hcontext hready (by rwa [hversion']) hwrite)
  | true =>
    obtain ⟨hin, hout⟩ := hcontext.sees.writeToHeap hready (by rwa [hversion']) hwrite
    refine .create hmethod ?_ fun id hid => ?_
    · have hback := hin c hc
      rw [Function.update_self] at hback
      have hchunk := hcreated rfl _ hback
      rwa [hptr] at hchunk
    · by_cases hmem : id ∈ m₀.chunkInfos.map ChunkInfo.ptr
      · obtain ⟨d, hd, rfl⟩ := List.mem_map.mp hmem
        have hback := hin d hd
        rw [Function.update_of_ne (by rwa [hptr])] at hback
        exact hback.unchanged
      · exact hout id hmem

/-- The dispatcher has returned. -/
theorem dispatcher_step (h : InContext argAppID heap m₀ (fun id => .initial (heap id)) s)
    (hready : Ready heap m₀)
    (hversion : s.heapModifier.currentVersion ≠ 0)
    (hrun : dispatcher heap text s = (.ok (.ok status), s'))
    (hwrite : s'.heapModifier.writeToHeap heap = .ok heap') :
    ArgStep s.sigManager.messages text heap heap' status := by
  unfold dispatcher at hrun
  obtain ⟨method, s₁, hscan, hbranch⟩ := AppCode.bind_eq_ok hrun
  obtain ⟨hvalue, hs₁⟩ := pScan_ok hscan
  rw [hs₁] at hbranch
  split at hbranch
  · rename_i hmethod
    exact patch_step h hready hversion (hvalue.symm.trans hmethod) hbranch hwrite
  rename_i hpatch
  split at hbranch
  · rename_i hmethod
    exact put_step h hready hversion (hvalue.symm.trans hmethod) hbranch hwrite
  · rename_i hput
    obtain ⟨hret, hs⟩ := Prod.mk.inj (hbranch : (pure 200 : AppCode Int) s = _)
    obtain rfl := Except.ok.inj (Except.ok.inj hret)
    rw [← hs] at hwrite
    exact .other ⟨fun heq => hpatch (hvalue.trans heq),
      fun heq => hput (hvalue.trans heq)⟩ (InContext.unchanged h hready hversion hwrite)

end

end ArgApp

/-! ## The request -/

/-- A request of the ARG application, whose modifier was built for a heap with the
space of this one. -/
structure ArgRequest (heap : Heap) (req : AppRequest) : Prop where
  calledAppID : req.calledAppID = argAppID
  built : ∃ (index : ChunkIndex) (heap₁ : Heap) (rawAccessMap : AccessMapType),
    index.buildModifier heap₁ rawAccessMap = .ok req.modifier ∧
    WellFormedAccess rawAccessMap ∧ SameSpace heap₁ heap

/-- A request that ends without an exception has failed, or the dispatcher has made a step. -/
theorem ArgRequest.step {heap heap' : Heap} {req : AppRequest} {text : ArgApp.RequestText}
    {status : Int} (hreq : ArgRequest heap req)
    (h : executeCode heap req (ArgApp.dispatcher heap text) = .ok (status, heap')) :
    (400 ≤ status ∧ heap' = heap) ∨ status < 400 ∧
    ArgStep req.signatureManager.messages text heap heap' status := by
  obtain ⟨index, heap₁, rawAccessMap, hbuilt, hwf, hspace⟩ := hreq.built
  obtain hfailed | ⟨hstatus, s, s', hmodifier, hcall, hsignatures, hrun, hwrite⟩ :=
    executeCode_ok (ChunkIndex.buildModifier_fresh hbuilt).version h
  · exact .inl hfailed
  refine .inr ⟨hstatus, ?_⟩
  rw [← hsignatures]
  have hsees : Sees heap req.modifier.appsAccessMaps { req.modifier with currentVersion := 1 } _ :=
    ChunkIndex.buildModifier_sees hbuilt 1
  have hready := ChunkIndex.buildModifier_ready hbuilt hwf hspace
  refine ArgApp.dispatcher_step ⟨?_, ?_, ?_⟩ hready ?_ hrun hwrite
  · exact hsees.congr (by rw [hmodifier]; rfl) (by rw [hmodifier]; rfl)
  · rw [hmodifier, hreq.calledAppID]
    rfl
  · rw [hcall]
    exact hreq.calledAppID
  · rw [hmodifier]
    exact Nat.one_ne_zero

/-! ## A payment -/

/-- A chunk that is filled by its content, of no more than 100 bytes. -/
def filledChunk (content : List Byte) : Chunk where
  content := content.take 100
  chunkSize := (content.take 100).length
  writable := true
  size_le := Nat.le_refl _
  capacity_le := by
    rw [List.length_take]
    exact Nat.le_trans (Nat.min_le_left _ _) (by decide)

/-- An account with a key and a balance, and with the nonces that come after them. -/
def keyAccount (decisionNonce balance : Nat) (nonces : List Byte) : Chunk :=
  filledChunk (leBytes decisionNonceSize decisionNonce ++ List.replicate publicKeySize 1 ++
    leBytes argBalanceSize balance ++ nonces)

/-- The first account has 7 and the second one nothing. -/
def twoAccounts (decisionNonce : Nat) (nonces : List Byte) : Heap := fun id =>
  if id = accountChunk 0x400000000000001 then keyAccount decisionNonce 7 nonces
  else if id = accountChunk 0x400000000000002 then keyAccount minNonce 0 []
  else .empty

def twoAccountsIndex : ChunkIndex where
  chunkIndex := [accountChunk 0x400000000000001, accountChunk 0x400000000000002]
  sizeBoundsInfo := .empty
  upper_le := fun _ h => absurd h List.not_mem_nil

/-- The first account, whose blocks are given, pays the second one. -/
def paymentAccess (blocks : BlockMap) : AccessMapType :=
  ⟨[argAppID], [⟨[toLex (0x400000000000001, 0), toLex (0x400000000000002, 0)],
    [blocks, ⟨[-2, 0, 67], [⟨75, .read_only, 0⟩, ⟨2, .read_only, 0⟩, ⟨8, .int_additive, 0⟩],
      rfl⟩], rfl⟩], rfl⟩

/-- The blocks of a normal account that pays. -/
def normalBlocks : BlockMap :=
  ⟨[-2, 0, 67], [⟨75, .read_only, 0⟩, ⟨2, .writable, 0⟩, ⟨8, .writable, 0⟩], rfl⟩

/-- The blocks of an account that is paid, and whose chunk may become longer. -/
def enlargedBlocks : BlockMap :=
  ⟨[-1, 0, 67], [⟨75, .writable, 0⟩, ⟨2, .read_only, 0⟩, ⟨8, .int_additive, 0⟩], by decide⟩

/-- The request, with the modifier that is built for it. -/
def paymentRequest (heap : Heap) (blocks : BlockMap) (nonce : String) : AppRequest where
  id := 0
  calledAppID := argAppID
  maxClocks := 1000
  modifier := ((twoAccountsIndex.buildModifier heap (paymentAccess blocks)).toOption).getD
    { appsAccessMaps := .empty }
  appTable := ⟨⟨[argAppID], [true], rfl⟩⟩
  useControlledExecution := true
  failureManager := {}
  attachments := []
  signatureManager :=
    { messages := [⟨0x400000000000001,
        "\x7b\"to\":0x400000000000002,\"amount\":2,\"forApp\":0x100000000000000,\"nonce\":" ++
          nonce ++ "\x7d"⟩] }

def paymentText : ArgApp.RequestText where
  method := ⟨.found, "PATCH"⟩
  account := ⟨.found, 0x400000000000001⟩
  recipient := ⟨.found, 0x400000000000002⟩
  amount := ⟨.found, 2⟩
  sigIndex := ⟨.found, 0⟩
  pk := ⟨.found, ⟨List.replicate publicKeySize 0, List.length_replicate⟩⟩
  proof := ⟨.found, ()⟩

/-- The heap after a request. -/
def heapAfter (heap : Heap) (req : AppRequest) (text : ArgApp.RequestText) : Heap :=
  ((executeCode heap req (ArgApp.dispatcher heap text)).toOption.map Prod.snd).getD heap

theorem run_of_status {heap : Heap} {req : AppRequest} {text : ArgApp.RequestText} {status : Int}
    (hstatus : (executeCode heap req (ArgApp.dispatcher heap text)).map Prod.fst = .ok status) :
    executeCode heap req (ArgApp.dispatcher heap text) = .ok (status, heapAfter heap req text) := by
  unfold heapAfter
  cases h : executeCode heap req (ArgApp.dispatcher heap text) with
  | error e =>
    rw [h] at hstatus
    cases hstatus
  | ok result =>
    rw [h] at hstatus
    obtain rfl := Except.ok.inj hstatus
    rfl

/-- The heap after the payment. -/
def paid (heap : Heap) (blocks : BlockMap) (nonce : String) : Heap :=
  heapAfter heap (paymentRequest heap blocks nonce) paymentText

/-- The request with a nonce is one of the application, and it pays. -/
def Pays (heap : Heap) (blocks : BlockMap) (nonce : String) : Prop :=
  (twoAccountsIndex.buildModifier heap (paymentAccess blocks)).toOption.isSome = true ∧
    (executeCode heap (paymentRequest heap blocks nonce)
      (ArgApp.dispatcher heap paymentText)).map Prod.fst = .ok 200

instance (heap : Heap) (blocks : BlockMap) (nonce : String) : Decidable (Pays heap blocks nonce) :=
  inferInstanceAs (Decidable (_ ∧ _))

theorem Pays.request {heap : Heap} {blocks : BlockMap} {nonce : String} (h : Pays heap blocks nonce)
    (hwf : WellFormedAccess (paymentAccess blocks)) :
    ArgRequest heap (paymentRequest heap blocks nonce) :=
  ⟨rfl, twoAccountsIndex, heap, paymentAccess blocks, eq_getD_of_isSome h.1 _, hwf, .refl _⟩

theorem Pays.run {heap : Heap} {blocks : BlockMap} {nonce : String} (h : Pays heap blocks nonce) :
    executeCode heap (paymentRequest heap blocks nonce) (ArgApp.dispatcher heap paymentText) =
      .ok (200, paid heap blocks nonce) :=
  run_of_status h.2

theorem normalBlocks_access : WellFormedAccess (paymentAccess normalBlocks) :=
  ⟨by decide, by decide⟩

/-- A payment between normal accounts. -/
def normalAccounts : Heap := twoAccounts minNonce []

def normalAccounts₁ : Heap := paid normalAccounts normalBlocks "8"

theorem normalAccounts_pays : Pays normalAccounts normalBlocks "8" := by decide +kernel

end Argennon
