import Argennon.Apps.ArgApp
import Argennon.Executor.SessionView
import Argennon.Heap.ChunkMemory

/- The accounts of the ARG application as chunks: where the balance and the nonces of each kind of
   account are, and what `verify_by_acc_once` has read and written when it accepts a message
   (`argc/functions/auth.cpp`). -/
namespace Argennon

/-- The chunk of an account. -/
def accountChunk (account : LongID) : FullID := toLex (argAppID, toLex (account, nonceChunkLocalID))

theorem accountChunk_injective {a b : LongID} (h : accountChunk a = accountChunk b) : a = b :=
  congrArg (fun id : FullID => (ofLex (ofLex id).2).1) h

/-- The offset of the balance by the decision nonce; the kinds from 3 to 7 are not used. -/
def balanceOffset (decisionNonce : Nat) : Option Nat :=
  if decisionNonce = 0 then some decisionNonceSize
  else if decisionNonce = 1 ∨ decisionNonce = 2 ∨ decisionNonce ≥ minNonce then
    some ArgC.keyBalanceIndex
  else none

/-- The offset of the nonce that a message of a length uses. -/
def nonceSlot (decisionNonce length : Nat) : Nat :=
  ArgC.nonceIndex (ArgC.nonceCount decisionNonce) ArgC.keyBalanceIndex length

/-- The decision nonce of an account. -/
def decisionNonceOf (mem : List Byte) : Nat := leNat (readAt mem 0 nonce16Size)

/-- The nonce at an offset. -/
def nonceAt (mem : List Byte) (offset : Nat) : Nat := leNat (readAt mem offset nonce16Size)

/-! ## Verification -/

/-- What the verification of a message does to the memory of the account: nothing, if there is no
message or the account is owned by an application, or the nonce of the message is consumed. -/
inductive NonceUse (messages : List SignedMessage) (issuer : LongID) (msg : String) (sigIndex : Int)
    (mem : List Byte) : List Byte → Prop where
  | kept (h : msg.utf8ByteSize = 0 ∨ decisionNonceOf mem = 0) :
    NonceUse messages issuer msg sigIndex mem mem
  | consumed (hmsg : msg.utf8ByteSize ≠ 0) (hdecision : balanceOffset (decisionNonceOf mem) =
    some ArgC.keyBalanceIndex) (slot : Nat)
      (hslot : slot = nonceSlot (decisionNonceOf mem) msg.utf8ByteSize)
        (hfit : slot + nonce16Size ≤ mem.length)
      (hlt : nonceAt mem slot < nonce16Max) (text : String)
        (htext : ArgC.appendNonceToMsg msg argAppID (nonceAt mem slot) = .ok text)
      (hsigned : 0 ≤ sigIndex ∧ messages[sigIndex.toNat]? = some ⟨issuer, text⟩) :
      NonceUse messages issuer msg sigIndex mem
        (writeAt mem slot (leBytes nonce16Size (nonceAt mem slot + 1)))

/-- The decision nonce is at the start. -/
theorem decisionNonceOf_writeAt {mem bytes : List Byte} {offset : Nat}
    (h : decisionNonceSize ≤ offset) :
    decisionNonceOf (writeAt mem offset bytes) = decisionNonceOf mem :=
  congrArg leNat (readAt_writeAt_apart (.inl (by rw [Nat.zero_add]; exact h)))

/-- Where a nonce is: past the balance, or in place of the decision nonce. -/
theorem nonceSlot_cases (decisionNonce length : Nat) :
    (decisionNonce = 1 ∨ decisionNonce = 2) ∧ ArgC.keyBalanceIndex + argBalanceSize ≤
    nonceSlot decisionNonce length ∨
      (decisionNonce ≠ 1 ∧ decisionNonce ≠ 2) ∧ nonceSlot decisionNonce length = 0 := by
  unfold nonceSlot ArgC.nonceIndex ArgC.nonceCount
  by_cases hone : decisionNonce = 1
  · left
    rw [if_pos hone, if_pos (by decide)]
    exact ⟨.inl hone, Nat.le_add_right _ _⟩
  · by_cases htwo : decisionNonce = 2
    · left
      rw [if_neg hone, if_pos htwo, if_pos (by decide)]
      exact ⟨.inr htwo, Nat.le_add_right _ _⟩
    · right
      rw [if_neg hone, if_neg htwo, if_neg (by decide)]
      exact ⟨⟨hone, htwo⟩, rfl⟩

/-- The slot of a normal account is its decision nonce. -/
theorem nonceSlot_normal {decisionNonce : Nat} (h : minNonce ≤ decisionNonce) (length : Nat) :
    nonceSlot decisionNonce length = 0 := by
  unfold minNonce at h
  obtain ⟨hother, -⟩ | ⟨-, hzero⟩ := nonceSlot_cases decisionNonce length
  · omega
  · exact hzero

/-- An account with nonces, by its decision nonce. -/
theorem balanceOffset_key {decisionNonce : Nat}
    (hplace : balanceOffset decisionNonce = some ArgC.keyBalanceIndex) :
    (decisionNonce = 1 ∨ decisionNonce = 2) ∨ minNonce ≤ decisionNonce := by
  unfold balanceOffset at hplace
  split at hplace
  · cases hplace
  split at hplace
  · omega
  · cases hplace

theorem balanceOffset_slots {decisionNonce offset : Nat}
    (hkind : decisionNonce = 1 ∨ decisionNonce = 2)
    (hplace : balanceOffset decisionNonce = some offset) : offset = ArgC.keyBalanceIndex := by
  obtain h | h := hkind <;> (rw [h] at hplace; exact (Option.some.inj hplace).symm)

theorem balanceOffset_min {decisionNonce : Nat} (h : minNonce ≤ decisionNonce) :
    balanceOffset decisionNonce = some ArgC.keyBalanceIndex := by
  unfold minNonce at h
  unfold balanceOffset
  rw [if_neg (by omega), if_pos (.inr (.inr h))]

/-- The memory of an account after a message: as it was,
or with the next nonce in the slot of the message. -/
inductive NonceStep (mem : List Byte) : List Byte → Prop where
  | kept : NonceStep mem mem
  | consumed (hdecision : balanceOffset (decisionNonceOf mem) = some ArgC.keyBalanceIndex)
    (length slot : Nat) (hslot : slot = nonceSlot (decisionNonceOf mem) length)
      (hfit : slot + nonce16Size ≤ mem.length) (hlt : nonceAt mem slot < nonce16Max) :
      NonceStep mem (writeAt mem slot (leBytes nonce16Size (nonceAt mem slot + 1)))

theorem NonceUse.step {messages : List SignedMessage} {issuer : LongID} {msg : String}
    {sigIndex : Int} {mem mem' : List Byte}
    (h : NonceUse messages issuer msg sigIndex mem mem') : NonceStep mem mem' := by
  cases h with
  | kept => exact .kept
  | consumed hmsg hdecision slot hslot hfit hlt => exact .consumed hdecision _ slot hslot hfit hlt

namespace NonceStep
variable {mem mem' : List Byte}

theorem length (h : NonceStep mem mem') : mem'.length = mem.length := by
  cases h with
  | kept => rfl
  | consumed => exact writeAt_length _ _ _

/-- The nonce that was consumed. -/
theorem consumed_nonce {slot : Nat} (hfit : slot + nonce16Size ≤ mem.length)
    (hlt : nonceAt mem slot < nonce16Max) :
    nonceAt (writeAt mem slot (leBytes nonce16Size (nonceAt mem slot + 1))) slot =
      nonceAt mem slot + 1 := by
  have hread : readAt (writeAt mem slot (leBytes nonce16Size (nonceAt mem slot + 1))) slot
      (leBytes nonce16Size (nonceAt mem slot + 1)).length = _ :=
        readAt_writeAt (by rw [leBytes_length]; exact hfit)
  rw [leBytes_length] at hread
  have hvalue : nonceAt mem slot + 1 < 256 ^ nonce16Size :=
    Nat.lt_of_lt_of_le (Nat.succ_lt_succ hlt) (by decide)
  calc nonceAt (writeAt mem slot (leBytes nonce16Size (nonceAt mem slot + 1))) slot
      = leNat (leBytes nonce16Size (nonceAt mem slot + 1)) := congrArg leNat hread
    _ = nonceAt mem slot + 1 := by rw [leNat_leBytes, Nat.mod_eq_of_lt hvalue]

/-- The decision nonce is the one before, or the next one if the nonce is in its place. -/
theorem decision (h : NonceStep mem mem') : decisionNonceOf mem' = decisionNonceOf mem ∨
    minNonce ≤ decisionNonceOf mem ∧ decisionNonceOf mem' = decisionNonceOf mem + 1 := by
  obtain _ | ⟨hdecision, length, slot, hslot, hfit, hlt⟩ := h
  · exact .inl rfl
  obtain ⟨-, hpast⟩ | ⟨hkind, hzero⟩ := nonceSlot_cases (decisionNonceOf mem) length
  · left
    rw [← hslot] at hpast
    exact decisionNonceOf_writeAt (Nat.le_trans (by decide) hpast)
  · right
    obtain rfl : slot = 0 := hslot.trans hzero
    obtain hother | hmin := balanceOffset_key hdecision
    · omega
    · exact ⟨hmin, consumed_nonce hfit hlt⟩

/-- The slots stay where they are. -/
theorem slot_eq (h : NonceStep mem mem') (length : Nat) :
    nonceSlot (decisionNonceOf mem') length = nonceSlot (decisionNonceOf mem) length := by
  obtain hsame | ⟨hkind, hnext⟩ := h.decision
  · rw [hsame]
  · unfold minNonce at hkind
    obtain ⟨hother, -⟩ | ⟨-, hzero⟩ := nonceSlot_cases (decisionNonceOf mem) length
    · omega
    obtain ⟨hother, -⟩ | ⟨-, hzero'⟩ := nonceSlot_cases (decisionNonceOf mem') length
    · omega
    rw [hzero, hzero']

/-- The balance stays where it is. -/
theorem balanceOffset_eq (h : NonceStep mem mem') :
    balanceOffset (decisionNonceOf mem') = balanceOffset (decisionNonceOf mem) := by
  obtain hsame | ⟨hmin, hnext⟩ := h.decision
  · rw [hsame]
  · rw [hnext, balanceOffset_min hmin, balanceOffset_min (Nat.le_succ_of_le hmin)]

/-- The slots are beside the balance. -/
theorem balance (h : NonceStep mem mem') {offset : Nat}
    (hplace : balanceOffset (decisionNonceOf mem) = some offset) :
    readAt mem' offset argBalanceSize = readAt mem offset argBalanceSize := by
  obtain _ | ⟨hdecision, length, slot, hslot, -, -⟩ := h
  · rfl
  obtain rfl := Option.some.inj (hplace.symm.trans hdecision)
  apply readAt_writeAt_apart
  rw [leBytes_length]
  obtain ⟨-, hpast⟩ | ⟨-, hzero⟩ := nonceSlot_cases (decisionNonceOf mem) length
  · exact .inl (hslot ▸ hpast)
  · exact .inr (by rw [hslot, hzero]; decide)

/-- Two slots are one slot or have no byte in common. -/
theorem slots_apart (decisionNonce l₁ l₂ : Nat) :
    nonceSlot decisionNonce l₁ = nonceSlot decisionNonce l₂ ∨
    nonceSlot decisionNonce l₁ + nonce16Size ≤ nonceSlot decisionNonce l₂ ∨
    nonceSlot decisionNonce l₂ + nonce16Size ≤ nonceSlot decisionNonce l₁ := by
  unfold nonceSlot ArgC.nonceIndex nonce16Size
  split <;> omega

/-- No nonce is lowered. -/
theorem nonce_le (h : NonceStep mem mem') (length : Nat) :
    nonceAt mem (nonceSlot (decisionNonceOf mem) length) ≤
      nonceAt mem' (nonceSlot (decisionNonceOf mem) length) := by
  obtain _ | ⟨-, length', slot, hslot, hfit, hlt⟩ := h
  · exact Nat.le_refl _
  obtain hsame | hapart := slots_apart (decisionNonceOf mem) length length'
  · rw [hsame, ← hslot, consumed_nonce hfit hlt]
    exact Nat.le_succ _
  · rw [← hslot] at hapart
    exact Nat.le_of_eq (congrArg leNat (readAt_writeAt_apart (by rwa [leBytes_length])).symm)

end NonceStep

section
variable {heap : Heap} {m₀ : AppMap AccessBlock} {views : FullID → ChunkView}
  {c₀ : ChunkInfo AccessBlock} {s s' : Session}
  {issuer : LongID} {msg : String} {sigIndex : Int} {mem : List Byte}

open ArgC

/-- What the view of the account is after the verification. -/
structure NonceUsed (c₀ : ChunkInfo AccessBlock) (heap : Heap) (m₀ : AppMap AccessBlock)
    (views : FullID → ChunkView)
    (messages : List SignedMessage) (issuer : LongID) (msg : String) (sigIndex : Int)
    (mem : List Byte) (v' : ChunkView)
    (mem' : List Byte) : Prop where
  size : v'.size = (views c₀.ptr).size
  use : NonceUse messages issuer msg sigIndex mem mem'
  untouched : msg.utf8ByteSize = 0 → v' = views c₀.ptr
  shows : ShowsMemory (heap c₀.ptr) c₀ v' mem'

/-- A block that may be stored to is not additive. -/
theorem Access.not_additive_of_write {a : Access} (h : a.denies .write = false) :
    a.isAdditive = false := by
  cases a <;> first | rfl | cases h

/-- A block that may be added to is not written. -/
theorem Access.additive_of_int_add {a : Access} (h : a.denies .int_add = false) :
    a.isAdditive = true ∧ a.denies .write = true := by
  cases a <;> first | exact ⟨rfl, rfl⟩ | cases h

/-- A message with a nonce that is accepted. -/
theorem verifyWithMultiwayNonce_sees (hdecision : balanceOffset (decisionNonceOf mem) =
    some keyBalanceIndex) (h : AtChunk argAppID heap m₀ views c₀ s)
    (hready : Ready heap m₀) (hmem : ShowsMemory (heap c₀.ptr) c₀ (views c₀.ptr) mem)
    (hrun : verifyWithMultiwayNonce heap (nonceCount (decisionNonceOf mem)) issuer argAppID msg
      sigIndex true s = (.ok true, s')) :
    ∃ v' mem', NonceUsed c₀ heap m₀ views s.sigManager.messages issuer msg sigIndex mem v' mem' ∧
      AtChunk argAppID heap m₀ (Function.update views c₀.ptr v') c₀ s' ∧
      s'.heapModifier.currentVersion = s.heapModifier.currentVersion := by
  unfold verifyWithMultiwayNonce at hrun
  split at hrun
  · rename_i hempty
    obtain ⟨-, rfl⟩ := Prod.mk.inj hrun
    exact ⟨views c₀.ptr, mem, ⟨rfl, .kept (.inl hempty), fun _ => rfl, hmem⟩,
      by rwa [Function.update_eq_self], rfl⟩
  rename_i hmsg
  have hplaced := hready.laid.placed c₀ h.mem
  obtain ⟨nonce, t, hload, hrun⟩ := bind_eq_ok hrun
  obtain ⟨ht, hmaps, b₁, hb₁, hsize, -, hnonce⟩ := h.load hready.laid hload
  have hfit : _ + b₁.size ≤ (heap c₀.ptr).content.length := hready.fits c₀ h.mem _ hb₁
  rw [hmem.bytes hplaced hb₁, readAt_readAt (by omega)] at hnonce
  unfold consumeNonce at hrun
  split at hrun
  · cases (Prod.mk.inj hrun).1
  rename_i hlt
  obtain ⟨text, u, htext, hrun⟩ := bind_eq_ok hrun
  obtain ⟨hmessage, rfl⟩ := Prod.mk.inj htext
  obtain ⟨valid, u, hverify, hrun⟩ := bind_eq_ok hrun
  obtain ⟨hvalid, rfl⟩ := Prod.mk.inj hverify
  cases valid with
  | false =>
    change (Except.ok false, t) = _ at hrun
    cases hrun
  | true =>
    have hstored : (store heap nonce16Size (nonceIndex (nonceCount (decisionNonceOf mem))
      keyBalanceIndex msg.utf8ByteSize) (nonce + 1) >>=
      fun _ => pure true) t = (.ok true, s') := hrun
    obtain ⟨_, u, hstore, hrun⟩ := bind_eq_ok hstored
    obtain ⟨-, rfl⟩ := Prod.mk.inj hrun
    obtain ⟨hmaps', b₂, hb₂, hwrite, -, hat⟩ := ht.store hready.laid hstore
    -- the block that is written is the one that was read
    obtain rfl := hplaced.unique hb₁ hb₂
    subst hnonce
    have hshows : ShowsMemory (heap c₀.ptr) c₀
        _ (writeAt mem (nonceSlot (decisionNonceOf mem) msg.utf8ByteSize + 0)
          (leBytes nonce16Size (nonceAt mem
            (nonceSlot (decisionNonceOf mem) msg.utf8ByteSize) + 1))) :=
      hmem.store hplaced hb₁ (Access.not_additive_of_write hwrite)
        (by rw [leBytes_length]; omega) hfit
    have hsigned : 0 ≤ sigIndex ∧ s.sigManager.messages[sigIndex.toNat]? = some ⟨issuer, text⟩ := by
      rw [← hmaps.sigManager]
      exact VirtualSignatureManager.verify_iff.mp (Except.ok.inj hvalid)
    refine ⟨(views c₀.ptr).write _ _, _, ⟨rfl, ?_, fun hempty => absurd hempty hmsg, hshows⟩, hat,
      by rw [hmaps'.currentVersion, hmaps.currentVersion]⟩
    refine .consumed hmsg hdecision _ rfl ?_ (Nat.lt_of_not_le hlt) text hmessage hsigned
    rw [hmem.length]
    exact Nat.le_trans (Nat.add_le_add_left hsize _) hfit

/-- A message of an account that is owned by an application does not touch the heap. -/
theorem verifyByApp_sees (h : AtChunk argAppID heap m₀ views c₀ s)
    (hrun : verifyByApp issuer argAppID msg sigIndex true s = (.ok true, s')) :
    AtChunk argAppID heap m₀ views c₀ s' ∧
      s'.heapModifier.currentVersion = s.heapModifier.currentVersion := by
  unfold verifyByApp at hrun
  split at hrun
  · obtain ⟨-, rfl⟩ := Prod.mk.inj hrun
    exact ⟨h, rfl⟩
  · obtain ⟨text, t, htext, hrun⟩ := bind_eq_ok hrun
    obtain ⟨-, rfl⟩ := Prod.mk.inj htext
    have hstate : s' = { s with sigManager :=
        (s.sigManager.verifyAndInvalidate text issuer sigIndex).2 } := (congrArg Prod.snd hrun).symm
    subst hstate
    exact ⟨⟨⟨h.sees, h.chunks, h.appID⟩, h.current⟩, rfl⟩

/-- Each kind of account is verified in its own way. -/
theorem verifyByKind_sees {offset : Option Nat} (h : AtChunk argAppID heap m₀ views c₀ s)
    (hready : Ready heap m₀)
    (hmem : ShowsMemory (heap c₀.ptr) c₀ (views c₀.ptr) mem)
    (hrun : verifyByKind heap (decisionNonceOf mem) issuer argAppID msg sigIndex true s =
      (.ok (true, offset), s')) :
    offset.isSome ∧ offset = balanceOffset (decisionNonceOf mem) ∧
      ∃ v' mem', NonceUsed c₀ heap m₀ views s.sigManager.messages issuer msg sigIndex mem v' mem' ∧
        AtChunk argAppID heap m₀ (Function.update views c₀.ptr v') c₀ s' ∧
        s'.heapModifier.currentVersion = s.heapModifier.currentVersion := by
  have hnonce {count : Nat} (hcount : nonceCount (decisionNonceOf mem) = count)
      (hoffset : balanceOffset (decisionNonceOf mem) = some keyBalanceIndex)
      (hrun : (verifyWithMultiwayNonce heap count issuer argAppID msg sigIndex true >>= fun valid =>
        pure (valid, some keyBalanceIndex)) s = (.ok (true, offset), s')) :
      offset.isSome ∧ offset = balanceOffset (decisionNonceOf mem) ∧
        ∃ v' mem', NonceUsed c₀ heap m₀ views s.sigManager.messages issuer msg sigIndex
          mem v' mem' ∧
          AtChunk argAppID heap m₀ (Function.update views c₀.ptr v') c₀ s' ∧
          s'.heapModifier.currentVersion = s.heapModifier.currentVersion := by
    obtain ⟨valid, t, hverify, hrun⟩ := bind_eq_ok hrun
    cases hrun
    rw [← hcount] at hverify
    exact ⟨rfl, hoffset.symm, verifyWithMultiwayNonce_sees hoffset h hready hmem hverify⟩
  unfold verifyByKind at hrun
  split at hrun
  · -- the account of an application consumes no nonce
    rename_i hzero
    obtain ⟨valid, t, hverify, hrun⟩ := bind_eq_ok hrun
    cases hrun
    obtain ⟨hat, hversion⟩ := verifyByApp_sees h hverify
    refine ⟨rfl, by rw [balanceOffset, if_pos hzero], views c₀.ptr, mem,
      ⟨rfl, .kept (.inr hzero), fun _ => rfl, hmem⟩, ?_, hversion⟩
    rwa [Function.update_eq_self]
  rename_i hzero
  split at hrun
  · rename_i hone
    exact hnonce (by rw [nonceCount, if_pos hone])
      (by rw [balanceOffset, if_neg hzero, if_pos (.inl hone)]) hrun
  rename_i hone
  split at hrun
  · rename_i htwo
    exact hnonce (by rw [nonceCount, if_neg hone, if_pos htwo])
      (by rw [balanceOffset, if_neg hzero, if_pos (.inr (.inl htwo))]) hrun
  rename_i htwo
  split at hrun
  · rename_i hmin
    exact hnonce (by rw [nonceCount, if_neg hone, if_neg htwo])
      (by rw [balanceOffset, if_neg hzero, if_pos (.inr (.inr hmin))]) hrun
  · cases (Prod.mk.inj hrun).1

/-- **What `verify_by_acc_once` has seen.** The account is in the heap, its kind gives the offset of
the balance, and a nonce is consumed as its kind says. -/
theorem verifyByAccount_sees (h : InContext argAppID heap m₀ views s) (hready : Ready heap m₀)
    (hmem : ∀ c₀ ∈ m₀.chunkInfos, c₀.ptr = accountChunk issuer →
      ShowsMemory (heap c₀.ptr) c₀ (views c₀.ptr) mem) {offset : Option Nat}
    (hrun : verifyByAccount heap issuer msg sigIndex true s = (.ok (true, offset), s')) :
    ∃ c₀ v' mem', c₀ ∈ m₀.chunkInfos ∧ c₀.ptr = accountChunk issuer ∧
      nonce16Size ≤ (views c₀.ptr).size ∧
      offset.isSome ∧ offset = balanceOffset (decisionNonceOf mem) ∧
      NonceUsed c₀ heap m₀ views s.sigManager.messages issuer msg sigIndex mem v' mem' ∧
      InContext argAppID heap m₀ (Function.update views c₀.ptr v') s' ∧
      s'.heapModifier.currentVersion = s.heapModifier.currentVersion := by
  unfold verifyByAccount withArgContext at hrun
  rw [h.appID] at hrun
  obtain ⟨hresult, hleft⟩ := Prod.mk.inj hrun
  have hbody : (do
      loadChunk heap issuer nonceChunkLocalID
      if ← isValid heap 0 nonce16Size then
        let decisionNonce ← load heap nonce16Size 0
        verifyByKind heap decisionNonce issuer argAppID msg sigIndex true
      else pure (false, none) : ArgC (Bool × Option Nat)) (s.loadContext argAppID) =
        (.ok (true, offset), _) :=
    Prod.ext hresult rfl
  obtain ⟨_, s₁, hload, hbody⟩ := bind_eq_ok hbody
  obtain ⟨hsigs₁, hversion₁, c₀, hptr, h₁⟩ := h.reloaded.loadChunk hready.laid hload
  obtain ⟨valid, s₂, hvalid, hbody⟩ := bind_eq_ok hbody
  obtain ⟨h₂, hmaps₂, rfl⟩ := h₁.isValid hready.laid hvalid
  -- an account that is not in the heap is not verified
  by_cases hsize : 0 + nonce16Size ≤ (views c₀.ptr).size
  swap
  · rw [decide_eq_false hsize] at hbody
    cases (Prod.mk.inj hbody).1
  rw [decide_eq_true hsize] at hbody
  obtain ⟨decisionNonce, s₃, hdecision, hkind⟩ := bind_eq_ok hbody
  obtain ⟨h₃, hmaps₃, b₀, hb₀, hwidth, -, hnonce⟩ := h₂.load hready.laid hdecision
  have hmem := hmem c₀ h₁.mem hptr
  -- what is loaded is the decision nonce that the chunk shows
  obtain rfl : decisionNonce = decisionNonceOf mem := by
    rw [hnonce, hmem.bytes (hready.laid.placed c₀ h₁.mem) hb₀, readAt_readAt (by omega)]
    rfl
  obtain ⟨hsome, hoffset, v', mem', hused, hat, hversion⟩ := verifyByKind_sees h₃ hready hmem hkind
  rw [hmaps₃.sigManager, hmaps₂.sigManager, hsigs₁] at hused
  refine ⟨c₀, v', mem', h₁.mem, hptr, by omega, hsome, hoffset, hused, ?_, ?_⟩
  · rw [← hleft]
    exact hat.toInContext.reloaded
  · rw [← hleft]
    exact hversion.trans (hmaps₃.currentVersion.trans (hmaps₂.currentVersion.trans hversion₁))

end
end Argennon
