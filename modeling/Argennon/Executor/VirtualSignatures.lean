import Argennon.Executor.Session
import Mathlib.Algebra.BigOperators.Group.List.Basic

/- The cost of virtual signatures (`executor/VirtualSignatureManager.cpp`). The ledger of a
   sequence of calls remembers the messages that `sign` has added and that are not
   invalidated, so that the cost can be compared with what they cost. -/
namespace Argennon.VirtualSignatureManager

theorem verify_iff {m : VirtualSignatureManager} {msg : String} {issuer : LongID} {index : Int} :
    m.verify msg issuer index ↔ 0 ≤ index ∧ m.messages[index.toNat]? = some ⟨issuer, msg⟩ := by
  unfold verify
  by_cases hneg : index < 0
  · rw [if_pos hneg]
    exact iff_of_false nofun (by omega)
  · rw [if_neg hneg]
    cases hsig : m.messages[index.toNat]? with
    | none => exact iff_of_false nofun (by simp)
    | some sig =>
      obtain ⟨issuer', msg'⟩ := sig
      simp only [Bool.and_eq_true, beq_iff_eq, Option.some.injEq, SignedMessage.mk.injEq]
      constructor
      · rintro ⟨rfl, rfl⟩
        exact ⟨by omega, rfl, rfl⟩
      · rintro ⟨-, rfl, rfl⟩
        exact ⟨rfl, rfl⟩

/-- A call of the manager. -/
inductive Op where
  | sign (msg : String) (issuer : LongID)
  | verify (msg : String) (issuer : LongID) (index : Int)
  | verifyAndInvalidate (msg : String) (issuer : LongID) (index : Int)

/-- The manager, and the indices of the messages that were charged. -/
structure Ledger where
  manager : VirtualSignatureManager
  charged : List Nat

namespace Ledger

/-- What `sign` has charged for the message at an index. -/
def charge (l : Ledger) (i : Nat) : Nat :=
  (l.manager.messages[i]?.map fun sig => sig.message.utf8ByteSize + sigConstantCost).getD 0

/-- The sum over the messages that were charged. -/
def charges (l : Ledger) : Nat := (l.charged.map l.charge).sum

/-- The ledger before the first call. -/
def start (messages : List SignedMessage) : Ledger := { manager := { messages }, charged := [] }

/-- The ledger after a call. -/
def step (l : Ledger) : Op → Ledger
  | .sign msg issuer =>
    match l.manager.sign msg issuer with
    | (.ok i, manager) => { manager, charged := i :: l.charged }
    | (.error _, manager) => { l with manager }
  | .verify _ _ _ => l
  | .verifyAndInvalidate msg issuer index =>
    match l.manager.verifyAndInvalidate msg issuer index with
    | (true, manager) => { manager, charged := l.charged.erase index.toNat }
    | (false, manager) => { l with manager }

/-- The cost is what the charged messages cost, and not above the limit. -/
structure Accounted (l : Ledger) : Prop where
  cost : l.manager.cost = l.charges
  limit : l.manager.cost ≤ maxCost

/-- `sign` throws exactly when the message does not fit, and then changes nothing. -/
def SignsExactly (l : Ledger) : Op → Prop
  | .sign msg issuer =>
    ((∃ e, (l.manager.sign msg issuer).1 = .error e) ↔
      maxCost < l.charges + (msg.utf8ByteSize + sigConstantCost)) ∧
      ∀ e, (l.manager.sign msg issuer).1 = .error e → (l.manager.sign msg issuer).2 = l.manager
  | _ => True

/-- The cost is right before and after every call of the sequence, and every `sign` is exact. -/
def AccountedThroughout (l : Ledger) : List Op → Prop
  | [] => l.Accounted
  | op :: ops => l.Accounted ∧ l.SignsExactly op ∧ (l.step op).AccountedThroughout ops

/-- The message of a `sign` fits, and an accepted message that is invalidated was charged. -/
def Regular (l : Ledger) : Op → Prop
  | .sign msg _ => l.manager.cost + (msg.utf8ByteSize + sigConstantCost) ≤ maxCost
  | .verify _ _ _ => True
  | .verifyAndInvalidate msg issuer index =>
    l.manager.verify msg issuer index → index.toNat ∈ l.charged

/-- Every call of the sequence is regular where it is made. -/
def RegularThroughout (l : Ledger) : List Op → Prop
  | [] => True
  | op :: ops => l.Regular op ∧ (l.step op).RegularThroughout ops

/-! ## A call -/

/-- What holds of a ledger as long as the calls are regular. -/
structure Sound (l : Ledger) : Prop where
  accounted : l.Accounted
  nodup : l.charged.Nodup
  lt : ∀ i ∈ l.charged, i < l.manager.messages.length
  size : ∀ sig ∈ l.manager.messages, sig.message.utf8ByteSize < 2 ^ 63

theorem charge_of_getElem? {l : Ledger} {i : Nat} {sig : SignedMessage}
    (h : l.manager.messages[i]? = some sig) :
    l.charge i = sig.message.utf8ByteSize + sigConstantCost := by
  unfold charge
  rw [h]
  rfl

theorem sign_of_fits {m : VirtualSignatureManager} {msg : String} (issuer : LongID)
    (h : m.cost + (msg.utf8ByteSize + sigConstantCost) ≤ maxCost) :
    m.sign msg issuer = (.ok m.messages.length,
      { cost := m.cost + (msg.utf8ByteSize + sigConstantCost),
        messages := m.messages ++ [⟨issuer, msg⟩] }) := by
  have hmod : (m.cost + (msg.utf8ByteSize + sigConstantCost)) % 2 ^ 64 =
      m.cost + (msg.utf8ByteSize + sigConstantCost) := by
    apply Nat.mod_eq_of_lt
    have : maxCost < 2 ^ 64 := by decide
    omega
  unfold sign
  rw [hmod]
  exact if_neg (by omega)

/-- The message is added, and its cost. -/
theorem Sound.sign {l : Ledger} (h : l.Sound) {msg : String} {issuer : LongID}
    (hfits : l.manager.cost + (msg.utf8ByteSize + sigConstantCost) ≤ maxCost) :
    l.SignsExactly (.sign msg issuer) ∧ (l.step (.sign msg issuer)).Sound := by
  have hsign := sign_of_fits issuer hfits
  have hstep : l.step (.sign msg issuer) =
      { manager := { cost := l.manager.cost + (msg.utf8ByteSize + sigConstantCost)
                     messages := l.manager.messages ++ [⟨issuer, msg⟩] }
        charged := l.manager.messages.length :: l.charged } := by
    simp only [step, hsign]
  have hcost := h.accounted.cost
  refine ⟨⟨?_, ?_⟩, ?_⟩
  · rw [hsign]
    exact iff_of_false (fun ⟨e, he⟩ => nomatch he) (by omega)
  · rw [hsign]
    exact fun e he => nomatch he
  · rw [hstep]
    have hold : ∀ i ∈ l.charged, (Ledger.mk ⟨l.manager.cost + (msg.utf8ByteSize + sigConstantCost),
        l.manager.messages ++ [⟨issuer, msg⟩]⟩ (l.manager.messages.length :: l.charged)).charge i =
          l.charge i := by
      intro i hi
      unfold charge
      simp only
      rw [List.getElem?_append_left (h.lt i hi)]
    refine ⟨⟨?_, hfits⟩, List.nodup_cons.mpr ⟨fun hmem => ?_, h.nodup⟩, ?_, ?_⟩
    · have hnew : (Ledger.mk ⟨l.manager.cost + (msg.utf8ByteSize + sigConstantCost),
          l.manager.messages ++ [⟨issuer, msg⟩]⟩ (l.manager.messages.length :: l.charged)).charge
            l.manager.messages.length = msg.utf8ByteSize + sigConstantCost := by
        have hlast : (l.manager.messages ++ [⟨issuer, msg⟩])[l.manager.messages.length]? =
            some ⟨issuer, msg⟩ := by simp
        exact charge_of_getElem? (l := ⟨⟨_, _⟩, _⟩) hlast
      unfold charges
      simp only [List.map_cons, List.sum_cons]
      rw [hnew, List.map_congr_left hold, hcost, charges]
      omega
    · exact Nat.lt_irrefl _ (h.lt _ hmem)
    · intro i hi
      simp only [List.length_append, List.length_singleton]
      obtain rfl | hi := List.mem_cons.mp hi
      · omega
      · have := h.lt i hi
        omega
    · intro sig hsig
      obtain hsig | hsig := List.mem_append.mp hsig
      · exact h.size sig hsig
      · obtain rfl := List.mem_singleton.mp hsig
        have : maxCost < 2 ^ 63 := by decide
        simp only
        omega

/-- The manager when an accepted message was invalidated. -/
def invalidated (m : VirtualSignatureManager) (msg : String) (issuer : LongID) (i : Nat) :
    VirtualSignatureManager :=
  { cost := (m.cost + 2 ^ 64 - (msg.utf8ByteSize + sigConstantCost) % 2 ^ 64) % 2 ^ 64
    messages := m.messages.set i ⟨issuer, ""⟩ }

theorem step_invalidate {l : Ledger} {msg : String} {issuer : LongID} {index : Int}
    (h : l.manager.verify msg issuer index) :
    l.step (.verifyAndInvalidate msg issuer index) =
      { manager := invalidated l.manager msg issuer index.toNat,
        charged := l.charged.erase index.toNat } := by
  simp only [step, VirtualSignatureManager.verifyAndInvalidate, if_pos h]
  rfl

theorem step_not_accepted {l : Ledger} {msg : String} {issuer : LongID} {index : Int}
    (h : ¬ l.manager.verify msg issuer index) :
    l.step (.verifyAndInvalidate msg issuer index) = l := by
  simp only [step, VirtualSignatureManager.verifyAndInvalidate, if_neg h]

theorem charge_invalidated {l : Ledger} {msg : String} {issuer : LongID} {i j : Nat}
    (charged : List Nat) (h : j ≠ i) :
    (Ledger.mk (invalidated l.manager msg issuer i) charged).charge j = l.charge j := by
  unfold charge invalidated
  simp only
  rw [List.getElem?_set_ne h.symm]

/-- The message is invalidated, and its cost is given back. -/
theorem Sound.invalidate {l : Ledger} (h : l.Sound) {msg : String} {issuer : LongID} {index : Int}
    (hcharged : l.manager.verify msg issuer index → index.toNat ∈ l.charged) :
    (l.step (.verifyAndInvalidate msg issuer index)).Sound := by
  by_cases hverify : l.manager.verify msg issuer index
  swap
  · rw [step_not_accepted hverify]
    exact h
  have hmem := hcharged hverify
  have hcharge : l.charge index.toNat = msg.utf8ByteSize + sigConstantCost :=
    charge_of_getElem? (verify_iff.mp hverify).2
  have hsum : l.charges =
      l.charge index.toNat + ((l.charged.erase index.toNat).map l.charge).sum := by
    unfold charges
    rw [((List.perm_cons_erase hmem).map l.charge).sum_eq, List.map_cons, List.sum_cons]
  have hcost := h.accounted.cost
  have hlimit := h.accounted.limit
  have hmax : maxCost < 2 ^ 64 := by decide
  rw [step_invalidate hverify]
  refine ⟨⟨?_, ?_⟩, h.nodup.erase _, fun i hi => ?_, fun sig hsig => ?_⟩
  · have hsame : ∀ i ∈ l.charged.erase index.toNat,
        (Ledger.mk (invalidated l.manager msg issuer index.toNat)
          (l.charged.erase index.toNat)).charge i = l.charge i :=
      fun i hi => charge_invalidated _ ((List.Nodup.mem_erase_iff h.nodup).mp hi).1
    unfold charges
    rw [List.map_congr_left hsame]
    simp only [invalidated]
    omega
  · simp only [invalidated]
    omega
  · simp only [invalidated, List.length_set]
    exact h.lt i (List.mem_of_mem_erase hi)
  · obtain hsig | rfl := List.mem_or_eq_of_mem_set hsig
    · exact h.size sig hsig
    · simp

/-- A call that is not regular breaks the account. -/
theorem Sound.regular_of_accounted {l : Ledger} (h : l.Sound) {op : Op} (hexact : l.SignsExactly op)
    (haccounted : (l.step op).Accounted) : l.Regular op := by
  have hcost := h.accounted.cost
  have hlimit := h.accounted.limit
  cases op with
  | verify msg issuer index => trivial
  | sign msg issuer =>
    by_contra hfits
    have hfits : maxCost < l.manager.cost + (msg.utf8ByteSize + sigConstantCost) :=
      Nat.lt_of_not_le hfits
    obtain ⟨e, he⟩ := hexact.1.mpr (hcost ▸ hfits)
    have hsame := hexact.2 e he
    by_cases hgt : (l.manager.cost + (msg.utf8ByteSize + sigConstantCost)) % 2 ^ 64 > maxCost
    · simp only [VirtualSignatureManager.sign, if_pos hgt] at hsame
      have := congrArg VirtualSignatureManager.cost hsame
      simp only at this
      omega
    · simp only [VirtualSignatureManager.sign, if_neg hgt] at he
      cases he
  | verifyAndInvalidate msg issuer index =>
    intro hverify
    by_contra hmem
    have hget := (verify_iff.mp hverify).2
    have hsize : msg.utf8ByteSize < 2 ^ 63 := h.size _ (List.mem_of_getElem? hget)
    rw [step_invalidate hverify, List.erase_of_not_mem hmem] at haccounted
    have hsame : ∀ i ∈ l.charged,
        (Ledger.mk (invalidated l.manager msg issuer index.toNat) l.charged).charge i =
          l.charge i :=
      fun i hi => charge_invalidated _ fun heq => hmem (heq ▸ hi)
    have haccount := haccounted.cost
    unfold charges at haccount
    rw [List.map_congr_left hsame] at haccount
    have hmax : maxCost < 2 ^ 64 := by decide
    simp only [invalidated, sigConstantCost] at haccount
    unfold charges at hcost
    omega

/-! ## Sequences of calls -/

theorem AccountedThroughout.accounted {l : Ledger} {ops : List Op} (h : l.AccountedThroughout ops) :
    l.Accounted := by
  cases ops with
  | nil => exact h
  | cons op ops => exact h.1

/-- A regular call is exact, and keeps what holds of the ledger. -/
theorem Sound.step {l : Ledger} (h : l.Sound) {op : Op} (hregular : l.Regular op) :
    l.SignsExactly op ∧ (l.step op).Sound := by
  cases op with
  | sign msg issuer => exact h.sign hregular
  | verify msg issuer index => exact ⟨trivial, h⟩
  | verifyAndInvalidate msg issuer index => exact ⟨trivial, h.invalidate hregular⟩

theorem Sound.accountedThroughout_iff : ∀ (ops : List Op) {l : Ledger}, l.Sound →
    (l.AccountedThroughout ops ↔ l.RegularThroughout ops)
  | [], l, h => iff_of_true h.accounted trivial
  | op :: ops, l, h => by
    constructor
    · rintro ⟨-, hexact, hrest⟩
      have hregular := h.regular_of_accounted hexact hrest.accounted
      exact ⟨hregular, (accountedThroughout_iff ops (h.step hregular).2).mp hrest⟩
    · rintro ⟨hregular, hrest⟩
      obtain ⟨hexact, hsound⟩ := h.step hregular
      exact ⟨h.accounted, hexact, (accountedThroughout_iff ops hsound).mpr hrest⟩

theorem Sound.start {messages : List SignedMessage}
    (hsize : ∀ sig ∈ messages, sig.message.utf8ByteSize < 2 ^ 63) :
    (start messages).Sound where
  accounted := ⟨rfl, Nat.zero_le _⟩
  nodup := List.nodup_nil
  lt := nofun
  size := hsize

/-- **Accounting.** Throughout a sequence of calls the cost is that of the messages that were
signed and not invalidated, and `sign` is exact, if and only if every call is regular: what is
signed fits, and what is invalidated was signed. -/
theorem accounted_iff_regular (messages : List SignedMessage) (ops : List Op)
    (hsize : ∀ sig ∈ messages, sig.message.utf8ByteSize < 2 ^ 63) :
    (start messages).AccountedThroughout ops ↔ (start messages).RegularThroughout ops :=
  (Sound.start hsize).accountedThroughout_iff ops

/-- After a message that was verified before, the same one is signed, and invalidated. -/
theorem accounted_iff_regular_signed :
    (start [⟨7, "pay"⟩]).AccountedThroughout [.sign "pay" 7, .verifyAndInvalidate "pay" 7 1] ↔
      (start [⟨7, "pay"⟩]).RegularThroughout [.sign "pay" 7, .verifyAndInvalidate "pay" 7 1] :=
  accounted_iff_regular [⟨7, "pay"⟩] _ (by decide)

/-- A message that was verified before the session is invalidated: the cost wraps around to almost
`2 ^ 64`, and the next `sign` throws. -/
theorem invalidate_wraps_cost :
    ¬ (start [⟨7, "pay"⟩]).AccountedThroughout [.verifyAndInvalidate "pay" 7 0] ∧
      ((start [⟨7, "pay"⟩]).step (.verifyAndInvalidate "pay" 7 0)).manager.cost = 2 ^ 64 - 11 ∧
      (((start [⟨7, "pay"⟩]).step (.verifyAndInvalidate "pay" 7 0)).manager.sign "a" 7).1 =
        .error (.asceeError "too many virtual signatures" .limit_exceeded) := by
  have hcost : ((start [⟨7, "pay"⟩]).step (.verifyAndInvalidate "pay" 7 0)).manager.cost =
      2 ^ 64 - 11 := by decide +kernel
  refine ⟨fun h => ?_, hcost, by decide +kernel⟩
  have hlimit := h.2.2.limit
  rw [hcost] at hlimit
  exact absurd hlimit (by decide)

end Ledger
end Argennon.VirtualSignatureManager
