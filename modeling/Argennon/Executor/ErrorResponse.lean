import Argennon.Executor.Session
import Mathlib.Algebra.Order.BigOperators.Group.List
import Mathlib.Data.String.Basic

/- When the response to an error can be written.

   A response has 8192 bytes, the application that the error happened in is written in
   decimal by levels of its prefix code, and only identifiers below the last boundary
   have one. The strings of the environment are short; only a message can be long. -/
namespace Argennon

/-! ## Sizes of strings -/

/-- The string has more bytes than an `int` counts, alone or with what the buffer holds. -/
def Oversized (maxSize : Nat) (content str : String) : Prop :=
  2 ^ 31 - 1 < str.utf8ByteSize ∨
    content.utf8ByteSize ≤ maxSize ∧ 2 ^ 31 - 1 < content.utf8ByteSize + str.utf8ByteSize

/-- The application has a decimal form. -/
def Numbered (app : LongID) : Prop := app.val < 0xd0 * 2 ^ 56

/-- The response to the error can be written. -/
def Writable (message : String) (code : StatusCode) (app : LongID) : Prop :=
  ∃ response, toHttpResponse message code app = .ok response

/-- The errors of the environment have short messages. -/
def Short (message : String) : Prop := message.utf8ByteSize ≤ 200

instance (message : String) : Decidable (Short message) := inferInstanceAs (Decidable (_ ≤ _))

end Argennon
