import Mathlib.Data.Prod.Lex
import Mathlib.Data.Fin.Basic
import Mathlib.Data.List.Forall2
import Mathlib.Algebra.Order.Ring.Int

/- Identifiers, bytes and exceptions of the execution environment
   (`core/primitives.h`, `util/encoding.h`, `argc/types.h`).

   A C++ function that can throw is a function into `Except Exn`. A failed
   `assert` ends the process and undefined behaviour (an index past the end of a
   vector, a null pointer read) has no defined outcome; both are exceptions of
   their own kind here, so that "the assertion never fails" and "every index is in
   range" are statements about the result. -/
namespace Argennon

/-- One byte of chunk memory. -/
abbrev Byte := UInt8

/-- `LongID`: a 64-bit identifier. -/
abbrev LongID := Fin (2 ^ 64)

instance instNeZeroLongID : NeZero (2 ^ 64 : Nat) := ⟨by decide⟩

/-- `LongLongID`: an account and a local identifier, compared lexicographically. -/
abbrev LongLongID := LongID ×ₗ LongID

/-- `FullID`: an application identifier and a chunk identifier inside it. -/
abbrev FullID := LongID ×ₗ LongLongID

/-- The values of an `int32`. -/
def IsInt32 (i : Int) : Prop := -2 ^ 31 ≤ i ∧ i < 2 ^ 31

instance (i : Int) : Decidable (IsInt32 i) := inferInstanceAs (Decidable (_ ∧ _))

/-- The conversion of an `int32` to `uint32`. -/
def toUInt32 (i : Int) : Nat := (i % 2 ^ 32).toNat

/-- `~0 << s`, in `w` bits, clears the lowest `s` bits. -/
theorem and_highMask {w s f : Nat} (hf : f < 2 ^ w) :
    f &&& (2 ^ w - 1) <<< s % 2 ^ w = f / 2 ^ s * 2 ^ s := by
  apply Nat.eq_of_testBit_eq
  intro i
  rw [Nat.testBit_and, Nat.testBit_mod_two_pow, Nat.testBit_shiftLeft, Nat.testBit_two_pow_sub_one,
    ← Nat.shiftRight_eq_div_pow,
    ← Nat.shiftLeft_eq, Nat.testBit_shiftLeft, Nat.testBit_shiftRight]
  obtain hi | hi := Nat.lt_or_ge i w
  · obtain hs | hs := Nat.lt_or_ge i s
    · simp [Nat.not_le.mpr hs]
    · have hlt : i - s < w := by omega
      simp [hi, hs, hlt]
  · -- the number has no bit there
    have hzero : f.testBit i = false :=
      Nat.testBit_lt_two_pow (Nat.lt_of_lt_of_le hf (Nat.pow_le_pow_right (by decide) hi))
    rw [hzero, Bool.false_and]
    obtain hs | hs := Nat.lt_or_ge i s
    · simp [Nat.not_le.mpr hs]
    · simp [hs, hzero]

/-- `util::toHex`: the `0x` prefix and the lower-case hexadecimal digits. -/
def toHex (value : Nat) : String := "0x" ++ String.ofList (Nat.toDigits 16 value)

/-- `LongID::operator std::string`. -/
def LongID.toString (id : LongID) : String := toHex id.val

/-- `LongLongID::operator std::string`. -/
def LongLongID.toString (id : LongLongID) : String :=
  LongID.toString (ofLex id).1 ++ "::" ++ LongID.toString (ofLex id).2

/-- HTTP response status codes. -/
inductive StatusCode where
  | bad_request | forbidden | not_found | limit_violated | execution_timeout | internal_error
  | limit_exceeded | invalid_operation | arithmetic_error | reentrancy_attempt | memory_fault
  | out_of_range
  deriving DecidableEq, Repr

/-- The value of the enumerator. -/
def StatusCode.toInt : StatusCode → Int
  | .bad_request => 400
  | .forbidden => 403
  | .not_found => 404
  | .limit_violated => 420
  | .execution_timeout => 421
  | .internal_error => 500
  | .limit_exceeded => 520
  | .invalid_operation => 521
  | .arithmetic_error => 522
  | .reentrancy_attempt => 523
  | .memory_fault => 524
  | .out_of_range => 525

/-- How a C++ call ends when it does not return. -/
inductive Exn where
  /-- `BlockError`: the block being validated is invalid. -/
  | blockError (message : String)
  /-- `std::out_of_range` -/
  | outOfRange (message : String)
  /-- `std::invalid_argument` -/
  | invalidArgument (message : String)
  /-- `std::underflow_error` -/
  | underflowError (message : String)
  /-- `std::overflow_error` -/
  | overflowError (message : String)
  /-- `std::runtime_error` -/
  | runtimeError (message : String)
  /-- `AsceeError` -/
  | asceeError (msg : String) (code : StatusCode)
  /-- `Executor::Error`: an `AsceeError` with the application it happened in. -/
  | executorError (message : String) (code : StatusCode) (app : LongID)
  /-- A failed `assert`. -/
  | assertion (condition : String)
  /-- `std::terminate`: an exception has left a thread, or a signal was raised in a guarded
  area. Also the end of a process whose stack was written over. -/
  | terminate
  /-- Undefined behaviour: an index past the end or a null pointer. -/
  | undefined
  /-- The step budget of a loop of the model ran out. -/
  | outOfFuel
  deriving DecidableEq, Repr

/-- Whether the exception tells that the block being validated is invalid. -/
def Exn.IsBlockError : Exn → Prop
  | .blockError _ => True
  | _ => False

/-- The exception is one of C++, and not the end of the process. -/
def Exn.IsThrown : Exn → Prop
  | .assertion _ | .terminate | .undefined | .outOfFuel => False
  | _ => True

instance (e : Exn) : Decidable e.IsThrown := by
  cases e <;> first | exact isTrue trivial | exact isFalse id

/-- The computation returns or throws. -/
def Ends {α : Type} (r : Except Exn α) : Prop := ∀ e, r = .error e → e.IsThrown

theorem ends_ok {α : Type} {r : Except Exn α} {a : α} (h : r = .ok a) : Ends r := by
  intro e he
  rw [h] at he
  cases he

theorem ends_error {α : Type} {r : Except Exn α} {e : Exn} (h : r = .error e) :
    Ends r ↔ e.IsThrown := by
  constructor
  · intro hr
    exact hr e h
  · intro hthrown e' he'
    rw [h] at he'
    exact Except.error.inj he' ▸ hthrown

/-- A computation that does not end throws something that is not an exception. -/
theorem not_ends_iff {α : Type} {r : Except Exn α} :
    ¬ Ends r ↔ ∃ e, r = .error e ∧ ¬ e.IsThrown := by
  simp [Ends]

/-- `v[k]`, with no bounds check in the source. -/
def vecGet {α : Type} (v : List α) (k : Nat) : Except Exn α :=
  match v[k]? with
  | some a => .ok a
  | none => .error .undefined

/-- `v[k] = a`, with no bounds check in the source. -/
def vecSet {α : Type} (v : List α) (k : Nat) (a : α) : Except Exn (List α) :=
  if k < v.length then .ok (v.set k a) else .error .undefined

theorem vecGet_lt {α : Type} {v : List α} {k : Nat} (h : k < v.length) : vecGet v k = .ok v[k] := by
  simp [vecGet, List.getElem?_eq_getElem h]

theorem vecGet_ok {α : Type} {v : List α} {k : Nat} {a : α} :
    vecGet v k = .ok a ↔ v[k]? = some a := by
  unfold vecGet
  cases v[k]? <;> simp

theorem vecSet_lt {α : Type} {v : List α} {k : Nat} (a : α) (h : k < v.length) :
    vecSet v k a = .ok (v.set k a) := by
  simp [vecSet, h]

/-- A loop over the elements of a vector that may throw at each of them. -/
def forEach {α : Type} (f : α → Except Exn Unit) : List α → Except Exn Unit
  | [] => .ok ()
  | a :: rest => do
    f a
    forEach f rest

/-- What a bind in `Except` that returns tells about its two halves. -/
theorem bind_ok {α β : Type} {x : Except Exn α} {f : α → Except Exn β} {b : β} :
    (x >>= f) = .ok b ↔ ∃ a, x = .ok a ∧ f a = .ok b := by
  cases x with
  | error e => simp [bind, Except.bind]
  | ok a => simp [bind, Except.bind]

theorem eq_getD_of_isSome {α : Type} {x : Except Exn α} (h : x.toOption.isSome) (default : α) :
    x = .ok (x.toOption.getD default) := by
  cases x with
  | ok a => rfl
  | error e => cases h

theorem forEach_ok {α : Type} {f : α → Except Exn Unit} {l : List α} :
    forEach f l = .ok () ↔ ∀ a ∈ l, f a = .ok () := by
  induction l with
  | nil => simp [forEach]
  | cons a rest ih =>
    rw [forEach, bind_ok, List.forall_mem_cons, ih]
    exact ⟨fun ⟨_, h⟩ => h, fun h => ⟨(), h⟩⟩

/-- A loop that collects what `f` returns returns when `f` does at every element. -/
theorem mapM_ok_iff {α β : Type} {f : α → Except Exn β} {l : List α} {r : List β} :
    l.mapM f = .ok r ↔ List.Forall₂ (fun a b => f a = .ok b) l r := by
  induction l generalizing r with
  | nil =>
    rw [List.mapM_nil, List.forall₂_nil_left_iff]
    exact ⟨fun h => (Except.ok.inj h).symm, fun h => h ▸ rfl⟩
  | cons a l ih =>
    rw [List.mapM_cons, bind_ok, List.forall₂_cons_left_iff]
    constructor
    · rintro ⟨b, hb, h⟩
      obtain ⟨bs, hbs, h⟩ := bind_ok.mp h
      exact ⟨b, bs, hb, ih.mp hbs, (Except.ok.inj h).symm⟩
    · rintro ⟨b, bs, hb, hbs, rfl⟩
      exact ⟨b, hb, bind_ok.mpr ⟨bs, ih.mpr hbs, rfl⟩⟩

theorem mapM_returns_iff {α β : Type} {f : α → Except Exn β} {l : List α} :
    (∃ r, l.mapM f = .ok r) ↔ ∀ a ∈ l, ∃ b, f a = .ok b := by
  induction l with
  | nil => simp [pure, Except.pure]
  | cons a l ih =>
    rw [List.forall_mem_cons, ← ih, List.mapM_cons]
    cases hf : f a with
    | error e => simp [bind, Except.bind]
    | ok b => cases hl : l.mapM f <;> simp [bind, Except.bind, pure, Except.pure]

/-- The first element at which `f` throws throws an exception with `p`. -/
def ThrowsFirst {α β : Type} (f : α → Except Exn β) (p : Exn → Prop) : List α → Prop
  | [] => False
  | a :: rest => (∃ e, f a = .error e ∧ p e) ∨ (∃ b, f a = .ok b) ∧ ThrowsFirst f p rest

theorem mapM_error_iff {α β : Type} {f : α → Except Exn β} {p : Exn → Prop} {l : List α} :
    (∃ e, l.mapM f = .error e ∧ p e) ↔ ThrowsFirst f p l := by
  induction l with
  | nil => simp [ThrowsFirst, pure, Except.pure]
  | cons a l ih =>
    rw [List.mapM_cons, ThrowsFirst, ← ih]
    cases hf : f a with
    | error e => simp [bind, Except.bind]
    | ok b =>
      cases hl : l.mapM f with
      | error e => simp [bind, Except.bind]
      | ok bs => simp [bind, Except.bind, pure, Except.pure]

theorem throwsFirst_append {α β : Type} {f : α → Except Exn β} {p : Exn → Prop} {l l' : List α} :
    ThrowsFirst f p (l ++ l') ↔ ThrowsFirst f p l ∨ (∀ a ∈ l, ∃ b, f a = .ok b) ∧
      ThrowsFirst f p l' := by
  induction l with
  | nil => simp [ThrowsFirst]
  | cons a l ih =>
    rw [List.cons_append, ThrowsFirst, ih, ThrowsFirst, List.forall_mem_cons, and_or_left,
      or_assoc, and_assoc]

theorem throwsFirst_map {α β γ : Type} {f : β → Except Exn γ} {g : α → β} {p : Exn → Prop}
    {l : List α} :
    ThrowsFirst f p (l.map g) ↔ ThrowsFirst (fun a => f (g a)) p l := by
  induction l with
  | nil => exact Iff.rfl
  | cons a l ih => rw [List.map_cons, ThrowsFirst, ThrowsFirst, ih]

/-- A loop in a loop throws what the one loop over all elements throws. -/
theorem throwsFirst_flatMap {α β γ δ : Type} {f : α → Except Exn γ} {g : β → Except Exn δ}
    {h : α → List β}
    {p : Exn → Prop} {l : List α}
    (herr : ∀ a ∈ l, (∃ e, f a = .error e ∧ p e) ↔ ThrowsFirst g p (h a))
    (hok : ∀ a ∈ l, (∃ c, f a = .ok c) ↔ ∀ b ∈ h a, ∃ d, g b = .ok d) :
    ThrowsFirst f p l ↔ ThrowsFirst g p (l.flatMap h) := by
  induction l with
  | nil => exact Iff.rfl
  | cons a l ih =>
    rw [List.flatMap_cons, throwsFirst_append, ThrowsFirst, herr a List.mem_cons_self,
      hok a List.mem_cons_self,
      ih (fun b hb => herr b (List.mem_cons_of_mem _ hb)) (fun b hb =>
        hok b (List.mem_cons_of_mem _ hb))]

end Argennon
