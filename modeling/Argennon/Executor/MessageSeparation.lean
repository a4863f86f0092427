import Argennon.Core.Numerals
import Argennon.Executor.Calls
import Argennon.Executor.LibraryFrame
import Argennon.Executor.ErrorResponse
import Argennon.Executor.VirtualSignatures

/- The texts that are signed (`argc/functions/auth.cpp`). `appendNonceToMsg` and
   `appendSpenderToMsg` append to a body that the calling application chooses. The text is
   read from its end: the last colon is before the nonce or the spender, and no body can
   move it. -/
namespace Argennon

/-! ## Texts read from their end -/

/-- The last of the separators is found in only one way. -/
theorem split_at_last {α : Type} {a : α} : ∀ {x₁ x₂ d₁ d₂ : List α}, a ∉ d₁ → a ∉ d₂ →
    x₁ ++ a :: d₁ = x₂ ++ a :: d₂ → x₁ = x₂ ∧ d₁ = d₂
  | [], [], _, _, _, _, h => ⟨rfl, (List.cons.inj h).2⟩
  | [], b :: x₂, d₁, d₂, h₁, _, h => by
    obtain ⟨-, hd⟩ := List.cons.inj h
    exact absurd (hd ▸ List.mem_append_right x₂ List.mem_cons_self) h₁
  | b :: x₁, [], d₁, d₂, _, h₂, h => by
    obtain ⟨-, hd⟩ := List.cons.inj h
    exact absurd (hd ▸ List.mem_append_right x₁ List.mem_cons_self) h₂
  | b :: x₁, c :: x₂, d₁, d₂, h₁, h₂, h => by
    obtain ⟨rfl, hd⟩ := List.cons.inj h
    obtain ⟨rfl, rfl⟩ := split_at_last h₁ h₂ hd
    exact ⟨rfl, rfl⟩

/-! ## Numbers -/

/-- The characters of a number in hexadecimal digits. -/
theorem digitChar_plain {d : Nat} (h : d < 16) :
    (Nat.digitChar d).toNat < 128 ∧ Nat.digitChar d ≠ ':' ∧ Nat.digitChar d ≠ 'x' := by
  have hall : ∀ i : Fin 16, (Nat.digitChar i).toNat < 128 ∧ Nat.digitChar i ≠ ':' ∧
      Nat.digitChar i ≠ 'x' := by decide
  exact hall ⟨d, h⟩

theorem toHex_plain {value : Nat} {c : Char} (h : c ∈ (toHex value).toList) :
    c.toNat < 128 ∧ c ≠ ':' := by
  rw [toList_toHex] at h
  obtain rfl | h := List.mem_cons.mp h
  · decide
  · obtain rfl | h := List.mem_cons.mp h
    · decide
    · obtain ⟨d, hd, rfl⟩ := mem_toDigits (by decide) h
      exact ⟨(digitChar_plain hd).1, (digitChar_plain hd).2.1⟩

theorem toString_plain {n : Nat} {c : Char} (h : c ∈ (toString n).toList) :
    c.toNat < 128 ∧ c ≠ ':' ∧ c ≠ 'x' := by
  rw [toList_toString] at h
  obtain ⟨d, hd, rfl⟩ := mem_toDigits (by decide) h
  exact digitChar_plain (by omega)

/-! ## What is appended -/

namespace ArgC

/-- What `appendNonceToMsg` appends. -/
def nonceSuffix (spender : LongID) (nonce : Nat) : List Char :=
  [",\"forApp\":", LongID.toString spender, ",\"nonce\":", toString nonce, "\x7d"].flatMap
    String.toList

/-- What `appendSpenderToMsg` appends. -/
def spenderSuffix (spender : LongID) : List Char :=
  [",\"forApp\":", LongID.toString spender, "\x7d"].flatMap String.toList

theorem appendAll_ok {maxSize : Nat} : ∀ {l : List String} {content r : String},
    StringBuffer.appendAll maxSize content l = .ok r →
      r.toList = content.toList ++ l.flatMap String.toList
  | [], content, r, h => by
    obtain rfl := Except.ok.inj h
    simp
  | str :: l, content, r, h => by
    unfold StringBuffer.appendAll at h
    obtain ⟨content', hcontent, h⟩ := bind_ok.mp h
    rw [appendAll_ok h, List.flatMap_cons, ← List.append_assoc]
    congr 1
    unfold StringBuffer.append at hcontent
    obtain ⟨size, -, hcontent⟩ := bind_ok.mp hcontent
    split at hcontent
    · cases hcontent
    split at hcontent
    · cases hcontent
    · obtain rfl := Except.ok.inj hcontent
      exact String.toList_append

theorem appendNonceToMsg_ok {msg r : String} {spender : LongID} {nonce : Nat}
    (h : appendNonceToMsg msg spender nonce = .ok r) :
    r.toList = msg.toList ++ nonceSuffix spender nonce := appendAll_ok h

theorem appendSpenderToMsg_ok {msg r : String} {spender : LongID}
    (h : appendSpenderToMsg msg spender = .ok r) :
    r.toList = msg.toList ++ spenderSuffix spender := appendAll_ok h

/-- `,"forApp"` -/
def forAppKey : List Char := ",\"forApp\"".toList

/-- `,"nonce"` -/
def nonceKey : List Char := ",\"nonce\"".toList

theorem nonceSuffix_eq (spender : LongID) (nonce : Nat) : nonceSuffix spender nonce =
    (forAppKey ++ ':' :: (LongID.toString spender).toList) ++ (nonceKey ++ ':' ::
      (toString nonce).toList) ++ ['\x7d'] := by
  have happ : (",\"forApp\":" : String).toList = forAppKey ++ [':'] := by decide
  have hnonce : (",\"nonce\":" : String).toList = nonceKey ++ [':'] := by decide
  have hend : ("\x7d" : String).toList = ['\x7d'] := by decide
  unfold nonceSuffix
  simp only [List.flatMap_cons, List.flatMap_nil, happ, hnonce, hend, List.append_nil,
    List.append_assoc,
    List.cons_append, List.nil_append]

theorem spenderSuffix_eq (spender : LongID) : spenderSuffix spender =
    (forAppKey ++ ':' :: (LongID.toString spender).toList) ++ ['\x7d'] := by
  have happ : (",\"forApp\":" : String).toList = forAppKey ++ [':'] := by decide
  have hend : ("\x7d" : String).toList = ['\x7d'] := by decide
  unfold spenderSuffix
  simp only [List.flatMap_cons, List.flatMap_nil, happ, hend, List.append_nil, List.append_assoc,
    List.cons_append, List.nil_append]

/-! ## Separation -/

/-- How a character of a text is stored: the characters that are appended are all ASCII. -/
def AsciiInjective {α : Type} (f : Char → α) : Prop := ∀ c d : Char, c.toNat < 128 → d.toNat < 128 →
    f c = f d → c = d

section
variable {α : Type} {f : Char → α} {m₁ m₂ : List α} {s₁ s₂ : LongID} {n₁ n₂ : Nat}

theorem colon_notMem (hf : AsciiInjective f) {l : List Char}
    (h : ∀ c ∈ l, c.toNat < 128 ∧ c ≠ ':') : f ':' ∉ l.map f := by
  intro hmem
  obtain ⟨c, hc, heq⟩ := List.mem_map.mp hmem
  exact (h c hc).2 (hf c ':' (h c hc).1 (by decide) heq)

theorem map_injective (hf : AsciiInjective f) : ∀ {l l' : List Char}, (∀ c ∈ l, c.toNat < 128) →
    (∀ c ∈ l', c.toNat < 128) →
    l.map f = l'.map f → l = l'
  | [], [], _, _, _ => rfl
  | c :: l, d :: l', hl, hl', h => by
    obtain ⟨hhead, htail⟩ := List.cons.inj h
    obtain rfl := hf c d (hl c List.mem_cons_self) (hl' d List.mem_cons_self) hhead
    rw [map_injective hf (fun c hc => hl c (List.mem_cons_of_mem _ hc))
      (fun d hd => hl' d (List.mem_cons_of_mem _ hd)) htail]

theorem spender_injective (hf : AsciiInjective f)
    (h : (LongID.toString s₁).toList.map f = (LongID.toString s₂).toList.map f) : s₁ = s₂ := by
  have hlist := map_injective hf (fun c hc => (toHex_plain hc).1) (fun c hc => (toHex_plain hc).1) h
  rw [toList_toHex, toList_toHex] at hlist
  exact Fin.ext (toDigits_injective (by decide) (by decide)
    (List.cons.inj (List.cons.inj hlist).2).2)

theorem nonce_injective (hf : AsciiInjective f)
    (h : (toString n₁).toList.map f = (toString n₂).toList.map f) : n₁ = n₂ := by
  have hlist := map_injective hf (fun c hc => (toString_plain hc).1) (fun c hc =>
    (toString_plain hc).1) h
  rw [toList_toString, toList_toString] at hlist
  exact toDigits_injective (by decide) (by decide) hlist

/-- The body and the spender, from a text that ends with the spender. -/
theorem forApp_injective (hf : AsciiInjective f)
    (h : m₁ ++ forAppKey.map f ++ (':' :: (LongID.toString s₁).toList).map f =
      m₂ ++ forAppKey.map f ++ (':' :: (LongID.toString s₂).toList).map f) : m₁ = m₂ ∧ s₁ = s₂ := by
  obtain ⟨hbody, hspender⟩ :=
    split_at_last (colon_notMem hf fun c => toHex_plain) (colon_notMem hf fun c => toHex_plain) h
  exact ⟨List.append_cancel_right hbody, spender_injective hf hspender⟩

/-- The text with a nonce determines the body, the spender and the nonce. -/
theorem nonceSuffix_injective (hf : AsciiInjective f)
    (h : m₁ ++ (nonceSuffix s₁ n₁).map f = m₂ ++ (nonceSuffix s₂ n₂).map f) :
    m₁ = m₂ ∧ s₁ = s₂ ∧ n₁ = n₂ := by
  simp only [nonceSuffix_eq, List.map_append, ← List.append_assoc] at h
  have h := List.append_cancel_right h
  obtain ⟨hfront, hnonce⟩ := split_at_last
    (colon_notMem hf fun c hc => ⟨(toString_plain hc).1, (toString_plain hc).2.1⟩)
    (colon_notMem hf fun c hc => ⟨(toString_plain hc).1, (toString_plain hc).2.1⟩) h
  obtain ⟨hbody, hspender⟩ := forApp_injective hf (List.append_cancel_right hfront)
  exact ⟨hbody, hspender, nonce_injective hf hnonce⟩

/-- The text without a nonce determines the body and the spender. -/
theorem spenderSuffix_injective (hf : AsciiInjective f)
    (h : m₁ ++ (spenderSuffix s₁).map f = m₂ ++ (spenderSuffix s₂).map f) :
    m₁ = m₂ ∧ s₁ = s₂ := by
  simp only [spenderSuffix_eq, List.map_append, ← List.append_assoc] at h
  exact forApp_injective hf (List.append_cancel_right h)

/-- A text has a nonce, or it has none: what follows the last colon is a number in decimal digits,
or one that begins with `0x`. -/
theorem nonceSuffix_ne_spenderSuffix (hf : AsciiInjective f) :
    m₁ ++ (nonceSuffix s₁ n₁).map f ≠ m₂ ++ (spenderSuffix s₂).map f := by
  intro h
  simp only [nonceSuffix_eq, spenderSuffix_eq, List.map_append, ← List.append_assoc] at h
  have h := List.append_cancel_right h
  obtain ⟨-, hnonce⟩ := split_at_last
    (colon_notMem hf fun c hc => ⟨(toString_plain hc).1, (toString_plain hc).2.1⟩)
    (colon_notMem hf fun c => toHex_plain) h
  have hlist := map_injective hf (fun c hc => (toString_plain hc).1) (fun c hc =>
    (toHex_plain hc).1) hnonce
  have hx : 'x' ∈ (toString n₁).toList := by
    rw [hlist, toList_toHex]
    exact List.mem_cons_of_mem _ List.mem_cons_self
  exact (toString_plain hx).2.2 rfl

end

/-- A character of a text is one byte. -/
def asciiByte (c : Char) : Byte := UInt8.ofNat c.toNat

theorem asciiByte_injective : AsciiInjective asciiByte := by
  intro c d hc hd h
  have hnat := congrArg UInt8.toNat h
  unfold asciiByte at hnat
  rw [UInt8.toNat_ofNat', UInt8.toNat_ofNat', Nat.mod_eq_of_lt (by omega),
    Nat.mod_eq_of_lt (by omega)] at hnat
  exact Char.toNat_inj.mp hnat

theorem id_injective : AsciiInjective (fun c : Char => c) := fun _ _ _ _ h => h

/-! ## Accepted messages -/

theorem bind_eq_ok {β γ : Type} {x : ArgC β} {g : β → ArgC γ} {s s' : Session} {c : γ}
    (h : (x >>= g) s = (.ok c, s')) :
    ∃ b t, x s = (.ok b, t) ∧ g b t = (.ok c, s') := by
  rw [bind_apply] at h
  cases hx : x s with
  | mk r t =>
    rw [hx] at h
    cases r with
    | error e => cases (Prod.mk.inj h).1
    | ok b => exact ⟨b, t, rfl, h⟩

/-- The operations on chunks leave the signatures as they are. -/
theorem sigManager_heapRule : HeapRule fun s t => t.sigManager = s.sigManager where
  rel := ⟨fun _ => rfl, fun h₁ h₂ => h₂.trans h₁⟩
  access _ _ _ := rfl
  loadChunk _ _ _ _ := rfl

/-- The chunk of the account is loaded, and the decision nonce is read. -/
def DecisionLoaded (heap : Heap) (issuerAccount : LongID) (s : Session) (decisionNonce : Nat)
    (t : Session) : Prop :=
  ∃ s₁ s₂, loadChunk heap issuerAccount nonceChunkLocalID (s.loadContext argAppID) = (.ok (), s₁) ∧
    isValid heap 0 nonce16Size s₁ = (.ok true, s₂) ∧
      load heap nonce16Size 0 s₂ = (.ok decisionNonce, t)

theorem DecisionLoaded.sigManager {heap : Heap} {issuerAccount : LongID} {s t : Session}
    {decisionNonce : Nat}
    (h : DecisionLoaded heap issuerAccount s decisionNonce t) : t.sigManager = s.sigManager := by
  obtain ⟨s₁, s₂, hload, hvalid, hdecision⟩ := h
  have h₁ := sigManager_heapRule.keeps_loadChunk heap issuerAccount nonceChunkLocalID
    (s.loadContext argAppID) fun _ _ => trivial
  have h₂ := sigManager_heapRule.keeps_isValid heap 0 nonce16Size s₁ fun _ _ => trivial
  have h₃ := sigManager_heapRule.keeps_load heap nonce16Size 0 s₂ fun _ _ => trivial
  rw [hload] at h₁
  rw [hvalid] at h₂
  rw [hdecision] at h₃
  exact h₃.trans (h₂.trans h₁)

/-- The number of nonces of an account. -/
def nonceCount (decisionNonce : Nat) : Nat :=
  if decisionNonce = 1 then 5 else if decisionNonce = 2 then 11 else 1

/-- What an accepted message is: the signed text at the index is the body with the spender, and with
the nonce that the account has now unless it is owned by an application. -/
structure Accepts (heap : Heap) (issuerAccount : LongID) (body : String) (sigIndex : Int)
    (s : Session) (decisionNonce : Nat)
    (t : Session) (text : String) : Prop where
  loaded : DecisionLoaded heap issuerAccount s decisionNonce t
  signed : 0 ≤ sigIndex ∧ s.sigManager.messages[sigIndex.toNat]? = some ⟨issuerAccount, text⟩
  byApp : decisionNonce = 0 → appendSpenderToMsg body s.currentCall.appID = .ok text
  byNonce : decisionNonce ≠ 0 → ∃ nonce u,
    load heap nonce16Size (nonceIndex (nonceCount decisionNonce) keyBalanceIndex body.utf8ByteSize)
      t = (.ok nonce, u) ∧
      appendNonceToMsg body s.currentCall.appID nonce = .ok text

section
variable {heap : Heap} {issuer spender : LongID} {body : String} {sigIndex : Int} {s s' : Session}

theorem verifyWithMultiwayNonce_accepts {count : Nat}
    (h : verifyWithMultiwayNonce heap count issuer spender body sigIndex true s = (.ok true, s'))
    (hne : body.utf8ByteSize ≠ 0) :
    ∃ nonce u text, load heap nonce16Size (nonceIndex count keyBalanceIndex body.utf8ByteSize) s =
      (.ok nonce, u) ∧
      appendNonceToMsg body spender nonce = .ok text ∧
        s.sigManager.verify text issuer sigIndex := by
  unfold verifyWithMultiwayNonce at h
  rw [if_neg hne] at h
  obtain ⟨nonce, u, hload, h⟩ := bind_eq_ok h
  have hkeeps := sigManager_heapRule.keeps_load heap nonce16Size
    (nonceIndex count keyBalanceIndex body.utf8ByteSize) s fun _ _ => trivial
  rw [hload] at hkeeps
  unfold consumeNonce at h
  split at h
  · cases (Prod.mk.inj h).1
  · obtain ⟨text, u', htext, h⟩ := bind_eq_ok h
    obtain ⟨hmsg, rfl⟩ := Prod.mk.inj htext
    obtain ⟨valid, v, hverify, h⟩ := bind_eq_ok h
    obtain ⟨hvalid, rfl⟩ := Prod.mk.inj hverify
    refine ⟨nonce, u, text, hload, hmsg, ?_⟩
    rw [← hkeeps]
    cases valid with
    | true => exact Except.ok.inj hvalid
    | false =>
      change (Except.ok false, u) = _ at h
      cases h

theorem verifyByApp_accepts (h : verifyByApp issuer spender body sigIndex true s = (.ok true, s'))
    (hne : body.utf8ByteSize ≠ 0) :
    ∃ text, appendSpenderToMsg body spender = .ok text ∧
      s.sigManager.verify text issuer sigIndex := by
  unfold verifyByApp at h
  rw [if_neg hne] at h
  obtain ⟨text, u, htext, h⟩ := bind_eq_ok h
  obtain ⟨hmsg, rfl⟩ := Prod.mk.inj htext
  refine ⟨text, hmsg, ?_⟩
  unfold verifyAndInvalidate VirtualSignatureManager.verifyAndInvalidate at h
  by_contra hnot
  rw [if_neg hnot] at h
  cases (Prod.mk.inj h).1

/-- What `verify_by_acc_once` has accepted. -/
theorem verifyByAccount_accepts {offset : Option Nat}
    (h : verifyByAccount heap issuer body sigIndex true s = (.ok (true, offset), s'))
    (hne : body.utf8ByteSize ≠ 0) :
    ∃ decisionNonce t text, Accepts heap issuer body sigIndex s decisionNonce t text := by
  unfold verifyByAccount withArgContext at h
  obtain ⟨hresult, -⟩ := Prod.mk.inj h
  have hbody : (do
      loadChunk heap issuer nonceChunkLocalID
      if ← isValid heap 0 nonce16Size then
        let decisionNonce ← load heap nonce16Size 0
        verifyByKind heap decisionNonce issuer s.currentCall.appID body sigIndex true
      else pure (false, none) : ArgC (Bool × Option Nat)) (s.loadContext argAppID) =
        (.ok (true, offset), _) :=
    Prod.ext hresult rfl
  obtain ⟨_, s₁, hload, hbody⟩ := bind_eq_ok hbody
  obtain ⟨valid, s₂, hvalid, hbody⟩ := bind_eq_ok hbody
  cases valid with
  | false => cases (Prod.mk.inj hbody).1
  | true =>
    obtain ⟨decisionNonce, t, hdecision, hbody⟩ := bind_eq_ok hbody
    have hloaded : DecisionLoaded heap issuer s decisionNonce t :=
      ⟨s₁, s₂, hload, hvalid, hdecision⟩
    have hsigs := hloaded.sigManager
    have hsigned {text : String} (hverify : t.sigManager.verify text issuer sigIndex) :
        0 ≤ sigIndex ∧ s.sigManager.messages[sigIndex.toNat]? = some ⟨issuer, text⟩ := by
      rw [hsigs] at hverify
      exact VirtualSignatureManager.verify_iff.mp hverify
    -- the three kinds of accounts with nonces differ in their number only
    have hnonce {count : Nat} {u : Session} (hcount : nonceCount decisionNonce = count)
        (hzero : decisionNonce ≠ 0)
        (hverify : verifyWithMultiwayNonce heap count issuer s.currentCall.appID body sigIndex true
          t = (.ok true, u)) :
        ∃ decisionNonce t text, Accepts heap issuer body sigIndex s decisionNonce t text := by
      obtain ⟨nonce, u, text, hnonce, htext, hverify⟩ := verifyWithMultiwayNonce_accepts hverify hne
      exact ⟨decisionNonce, t, text, hloaded, hsigned hverify, fun h => absurd h hzero,
        fun _ => ⟨nonce, u, hcount ▸ hnonce, htext⟩⟩
    unfold verifyByKind at hbody
    split at hbody
    · rename_i hzero
      obtain ⟨valid, u, hverify, hbody⟩ := bind_eq_ok hbody
      cases hbody
      obtain ⟨text, htext, hverify⟩ := verifyByApp_accepts hverify hne
      exact ⟨decisionNonce, t, text, hloaded, hsigned hverify, fun _ => htext,
        fun h => absurd hzero h⟩
    · rename_i hzero
      split at hbody
      · rename_i hone
        obtain ⟨valid, u, hverify, hbody⟩ := bind_eq_ok hbody
        cases hbody
        exact hnonce (by rw [nonceCount, if_pos hone]) hzero hverify
      · rename_i hone
        split at hbody
        · rename_i htwo
          obtain ⟨valid, u, hverify, hbody⟩ := bind_eq_ok hbody
          cases hbody
          exact hnonce (by rw [nonceCount, if_neg hone, if_pos htwo]) hzero hverify
        · rename_i htwo
          split at hbody
          · obtain ⟨valid, u, hverify, hbody⟩ := bind_eq_ok hbody
            cases hbody
            exact hnonce (by rw [nonceCount, if_neg hone, if_neg htwo]) hzero hverify
          · cases (Prod.mk.inj hbody).1

end

/-- The texts that are signed are kept apart. -/
structure SignedTextsSeparated : Prop where
  /-- Bodies of any bytes. -/
  nonceBytes : ∀ (m₁ m₂ : List Byte) (s₁ s₂ : LongID) (n₁ n₂ : Nat),
    m₁ ++ (nonceSuffix s₁ n₁).map asciiByte = m₂ ++ (nonceSuffix s₂ n₂).map asciiByte → m₁ = m₂ ∧
      s₁ = s₂ ∧ n₁ = n₂
  spenderBytes : ∀ (m₁ m₂ : List Byte) (s₁ s₂ : LongID),
    m₁ ++ (spenderSuffix s₁).map asciiByte = m₂ ++ (spenderSuffix s₂).map asciiByte →
      m₁ = m₂ ∧ s₁ = s₂
  differentBytes : ∀ (m₁ m₂ : List Byte) (s₁ s₂ : LongID) (n : Nat),
    m₁ ++ (nonceSuffix s₁ n).map asciiByte ≠ m₂ ++ (spenderSuffix s₂).map asciiByte
  nonce : ∀ (msg₁ msg₂ : String) (s₁ s₂ : LongID) (n₁ n₂ : Nat) (text : String),
    appendNonceToMsg msg₁ s₁ n₁ = .ok text → appendNonceToMsg msg₂ s₂ n₂ = .ok text → msg₁ = msg₂ ∧
      s₁ = s₂ ∧ n₁ = n₂
  spender : ∀ (msg₁ msg₂ : String) (s₁ s₂ : LongID) (text : String),
    appendSpenderToMsg msg₁ s₁ = .ok text → appendSpenderToMsg msg₂ s₂ = .ok text →
      msg₁ = msg₂ ∧ s₁ = s₂
  different : ∀ (msg₁ msg₂ : String) (s₁ s₂ : LongID) (n : Nat) (text : String),
    appendNonceToMsg msg₁ s₁ n = .ok text → appendSpenderToMsg msg₂ s₂ ≠ .ok text
  /-- A message that was signed with a nonce is accepted for its body, its spender and its nonce
  only, and never for an account that is owned by an application. The body is not empty: an empty
  one needs no signed message, `verifyByAccount` accepts it for every account whose decision nonce
  is not reserved. -/
  nonceAccepted : ∀ (heap : Heap) (issuer : LongID) (body : String) (sigIndex : Int) (s s' :
    Session) (offset : Option Nat)
    (msg : String) (spender : LongID) (nonce : Nat) (sig : SignedMessage),
    verifyByAccount heap issuer body sigIndex true s = (.ok (true, offset), s') →
      body.utf8ByteSize ≠ 0 →
    s.sigManager.messages[sigIndex.toNat]? = some sig →
      appendNonceToMsg msg spender nonce = .ok sig.message →
    body = msg ∧ s.currentCall.appID = spender ∧ sig.issuerAccount = issuer ∧
      ∃ decisionNonce t u, decisionNonce ≠ 0 ∧ DecisionLoaded heap issuer s decisionNonce t ∧
        load heap nonce16Size (nonceIndex (nonceCount decisionNonce) keyBalanceIndex
          body.utf8ByteSize) t = (.ok nonce, u)
  /-- A message that was signed without a nonce is accepted for its body and its spender only, and
  only for an account that is owned by an application. Again the body is not empty. -/
  spenderAccepted : ∀ (heap : Heap) (issuer : LongID) (body : String) (sigIndex : Int) (s s' :
    Session) (offset : Option Nat)
    (msg : String) (spender : LongID) (sig : SignedMessage),
    verifyByAccount heap issuer body sigIndex true s = (.ok (true, offset), s') →
      body.utf8ByteSize ≠ 0 →
    s.sigManager.messages[sigIndex.toNat]? = some sig →
      appendSpenderToMsg msg spender = .ok sig.message →
    body = msg ∧ s.currentCall.appID = spender ∧ sig.issuerAccount = issuer ∧
      ∃ t, DecisionLoaded heap issuer s 0 t

/-- **Domain separation.** A text that is signed determines its body, its spender and its nonce, and
so what a signed message is accepted for. -/
theorem signedTexts_separated : SignedTextsSeparated := by
  have hnonce : ∀ (msg₁ msg₂ : String) (s₁ s₂ : LongID) (n₁ n₂ : Nat) (text : String),
      appendNonceToMsg msg₁ s₁ n₁ = .ok text → appendNonceToMsg msg₂ s₂ n₂ = .ok text →
        msg₁ = msg₂ ∧ s₁ = s₂ ∧ n₁ = n₂ := by
    intro msg₁ msg₂ s₁ s₂ n₁ n₂ text h₁ h₂
    have heq := (appendNonceToMsg_ok h₁).symm.trans (appendNonceToMsg_ok h₂)
    obtain ⟨hmsg, hrest⟩ :=
      nonceSuffix_injective id_injective (by simpa only [List.map_id'] using heq)
    exact ⟨String.toList_inj.mp hmsg, hrest⟩
  have hspender : ∀ (msg₁ msg₂ : String) (s₁ s₂ : LongID) (text : String),
      appendSpenderToMsg msg₁ s₁ = .ok text → appendSpenderToMsg msg₂ s₂ = .ok text → msg₁ = msg₂ ∧
        s₁ = s₂ := by
    intro msg₁ msg₂ s₁ s₂ text h₁ h₂
    have heq := (appendSpenderToMsg_ok h₁).symm.trans (appendSpenderToMsg_ok h₂)
    obtain ⟨hmsg, hrest⟩ :=
      spenderSuffix_injective id_injective (by simpa only [List.map_id'] using heq)
    exact ⟨String.toList_inj.mp hmsg, hrest⟩
  -- the two suffixes end differently, so no text has both forms
  have hdifferent : ∀ (msg₁ msg₂ : String) (s₁ s₂ : LongID) (n : Nat) (text : String),
      appendNonceToMsg msg₁ s₁ n = .ok text → appendSpenderToMsg msg₂ s₂ ≠ .ok text := by
    intro msg₁ msg₂ s₁ s₂ n text h₁ h₂
    have heq := (appendNonceToMsg_ok h₁).symm.trans (appendSpenderToMsg_ok h₂)
    have hne : msg₁.toList ++ (nonceSuffix s₁ n).map (fun c => c) ≠
        msg₂.toList ++ (spenderSuffix s₂).map (fun c => c) :=
      nonceSuffix_ne_spenderSuffix id_injective
    simp only [List.map_id'] at hne
    exact hne heq
  refine ⟨fun _ _ _ _ _ _ => nonceSuffix_injective asciiByte_injective,
    fun _ _ _ _ => spenderSuffix_injective asciiByte_injective,
    fun _ _ _ _ _ => nonceSuffix_ne_spenderSuffix asciiByte_injective, hnonce, hspender,
      hdifferent, ?_, ?_⟩
  · intro heap issuer body sigIndex s s' offset msg spender nonce sig hverify hne hsig hmsg
    obtain ⟨decisionNonce, t, text, haccepts⟩ := verifyByAccount_accepts hverify hne
    obtain rfl := Option.some.inj (hsig.symm.trans haccepts.signed.2)
    by_cases hzero : decisionNonce = 0
    · exact absurd (haccepts.byApp hzero) (hdifferent msg body spender _ nonce text hmsg)
    · obtain ⟨nonce', u, hload, htext⟩ := haccepts.byNonce hzero
      obtain ⟨rfl, rfl, rfl⟩ := hnonce body msg _ spender nonce' nonce text htext hmsg
      exact ⟨rfl, rfl, rfl, decisionNonce, t, u, hzero, haccepts.loaded, hload⟩
  · intro heap issuer body sigIndex s s' offset msg spender sig hverify hne hsig hmsg
    obtain ⟨decisionNonce, t, text, haccepts⟩ := verifyByAccount_accepts hverify hne
    obtain rfl := Option.some.inj (hsig.symm.trans haccepts.signed.2)
    by_cases hzero : decisionNonce = 0
    · obtain ⟨rfl, rfl⟩ := hspender body msg _ spender text (haccepts.byApp hzero) hmsg
      exact ⟨rfl, rfl, rfl, t, hzero ▸ haccepts.loaded⟩
    · obtain ⟨nonce, u, -, htext⟩ := haccepts.byNonce hzero
      exact absurd hmsg (hdifferent body msg _ spender nonce text htext)

end ArgC
end Argennon
