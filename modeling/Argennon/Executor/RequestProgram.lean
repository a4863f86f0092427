import Argennon.Executor.ExecuteOne
import Mathlib.Logic.Function.Iterate

/- A request that shares the heap with other requests while it is executed.

   To the heap a request is a program over the operations of its modifier: what it does next is
   decided by what the operations so far have returned. One turn is one operation, or the write-back
   of one chunk; between two turns of a request the others have theirs. A request that has the heap
   for itself ends as `executeProgram` says (`finish_turn`), which is `executeOne` for a program. -/
namespace Argennon

/-- What a request does with its modifier. -/
inductive Program where
  | ending (result : Except Exn Int)
  | step (op : Op) (next : Except Exn Value → Program)

/-- The whole program on a heap that nobody else changes. -/
def Program.run (heap : Heap) : Program → RestrictedModifier AccessBlock → Except Exn Int ×
    RestrictedModifier AccessBlock
  | .ending result, m => (result, m)
  | .step op next, m => (next (m.exec heap op).1).run heap (m.exec heap op).2

/-- What an exception is when it leaves `executeOne`. -/
def escaping : Exn → Exn
  | .outOfRange _ => .runtimeError "why???"
  | e => e

namespace RestrictedModifier

/-- The chunks that `writeToHeap` goes over. -/
def writtenChunks (m : RestrictedModifier AccessBlock) : List (ChunkInfo AccessBlock) :=
  if m.currentVersion = 0 then [] else m.appsAccessMaps.chunkInfos

/-- The loop of `writeToHeap`, with the heap that an exception leaves. -/
def writeAll (version : Nat) : List (ChunkInfo AccessBlock) → Heap → Except Exn Unit × Heap
  | [], heap => (.ok (), heap)
  | c :: rest, heap =>
    match c.writeToHeap version (heap c.ptr) with
    | .error e => (.error e, heap)
    | .ok chunk => writeAll version rest (Function.update heap c.ptr chunk)

theorem writeChunks_eq (version : Nat) : ∀ (l : List (ChunkInfo AccessBlock)) (heap : Heap),
    writeChunks version l heap =
      (writeAll version l heap).1.map fun _ => (writeAll version l heap).2
  | [], _ => rfl
  | c :: rest, heap => by
    rw [writeChunks, writeAll]
    cases c.writeToHeap version (heap c.ptr) with
    | error e => rfl
    | ok chunk => exact writeChunks_eq version rest (Function.update heap c.ptr chunk)

theorem writeToHeap_eq (m : RestrictedModifier AccessBlock) (heap : Heap) : m.writeToHeap heap =
    (writeAll m.currentVersion m.writtenChunks heap).1.map fun _ =>
    (writeAll m.currentVersion m.writtenChunks heap).2 := by
  rw [writeToHeap, writtenChunks]
  split
  · rfl
  · exact writeChunks_eq m.currentVersion _ heap

end RestrictedModifier

open RestrictedModifier

/-- The write-back of a request that has returned a status code. -/
def finishWriting (statusCode : Int) (version : Nat) (chunks : List (ChunkInfo AccessBlock))
    (heap : Heap) : Except Exn Int × Heap :=
  match writeAll version chunks heap with
  | (.error e, heap) => (.error (escaping e), heap)
  | (.ok (), heap) => (.ok statusCode, heap)

/-- `executeOne` for a program, with the heap that an exception leaves. -/
def executeProgram (heap : Heap) (m : RestrictedModifier AccessBlock) (program : Program) :
    Except Exn Int × Heap :=
  match program.run heap m with
  | (.error e, _) => (.error (escaping e), heap)
  | (.ok statusCode, m) => finishWriting statusCode m.currentVersion m.writtenChunks heap

/-- The program ends like the application that the request calls, and leaves the same modifier. -/
def Program.Represents (program : Program) (heap : Heap) (req : AppRequest) (run : Run) : Prop :=
  program.run heap req.modifier =
    ((req.callRoot heap run).1, (req.callRoot heap run).2.heapModifier)

/-- `executeOne` is `executeProgram` of a program that represents the request. -/
theorem executeOne_eq_executeProgram {heap : Heap} {req : AppRequest} {run : Run}
    {program : Program}
    (h : program.Represents heap req run) : executeOne heap req run =
      (executeProgram heap req.modifier program).1.map fun statusCode =>
      (statusCode, (executeProgram heap req.modifier program).2) := by
  unfold executeProgram executeOne
  rw [h]
  obtain ⟨e | statusCode, s⟩ := req.callRoot heap run
  · cases e <;> rfl
  · simp only [finishWriting]
    rw [writeToHeap_eq]
    obtain ⟨e | u, heap'⟩ :=
      writeAll s.heapModifier.currentVersion s.heapModifier.writtenChunks heap
    · cases e <;> rfl
    · rfl

/-! ## Turns -/

/-- Where a request is in its execution. -/
inductive RequestState where
  | running (program : Program) (m : RestrictedModifier AccessBlock)
  | writing (statusCode : Int) (version : Nat) (chunks : List (ChunkInfo AccessBlock))
  | ended (result : Except Exn Int)

namespace RequestState

/-- One turn: an operation of the program, or the write-back of one chunk. -/
def turn (heap : Heap) : RequestState → RequestState × Heap
  | running (.ending (.error e)) _ => (ended (.error (escaping e)), heap)
  | running (.ending (.ok statusCode)) m =>
    (writing statusCode m.currentVersion m.writtenChunks, heap)
  | running (.step op next) m => (running (next (m.exec heap op).1) (m.exec heap op).2, heap)
  | writing statusCode _ [] => (ended (.ok statusCode), heap)
  | writing statusCode version (c :: rest) =>
    match c.writeToHeap version (heap c.ptr) with
    | .error e => (ended (.error (escaping e)), heap)
    | .ok chunk => (writing statusCode version rest, Function.update heap c.ptr chunk)
  | ended result => (ended result, heap)

/-- The request has ended. -/
def Over : RequestState → Prop
  | ended _ => True
  | _ => False

theorem Over.eq {r : RequestState} (h : r.Over) : ∃ result, r = ended result := by
  cases r with
  | ended result => exact ⟨result, rfl⟩
  | running program m => exact h.elim
  | writing statusCode version chunks => exact h.elim

/-- What a request comes to when nobody else changes the heap. -/
def finish (heap : Heap) : RequestState → Except Exn Int × Heap
  | running program m => executeProgram heap m program
  | writing statusCode version chunks => finishWriting statusCode version chunks heap
  | ended result => (result, heap)

/-- A turn changes nothing of what the request comes to. -/
theorem finish_turn (heap : Heap) (r : RequestState) :
    (r.turn heap).1.finish (r.turn heap).2 = r.finish heap := by
  cases r with
  | ended result => rfl
  | running program m =>
    cases program with
    | ending result => cases result <;> rfl
    | step op next => rfl
  | writing statusCode version chunks =>
    cases chunks with
    | nil => rfl
    | cons c rest =>
      simp only [turn, finish, finishWriting, writeAll]
      cases c.writeToHeap version (heap c.ptr) with
      | error e => rfl
      | ok chunk => rfl

/-- The turns of a request that has the heap for itself. -/
def turns (heap : Heap) (r : RequestState) : Nat → RequestState × Heap
  | 0 => (r, heap)
  | k + 1 => (turns heap r k).1.turn (turns heap r k).2

theorem turns_succ (heap : Heap) (r : RequestState) :
    ∀ k, r.turns heap (k + 1) = (r.turn heap).1.turns (r.turn heap).2 k
  | 0 => rfl
  | k + 1 => by
    rw [turns, turns_succ heap r k]
    rfl

theorem finish_turns (heap : Heap) (r : RequestState) :
    ∀ k, (r.turns heap k).1.finish (r.turns heap k).2 = r.finish heap
  | 0 => rfl
  | k + 1 => by rw [turns, finish_turn, finish_turns heap r k]

/-- A request that has ended on its own has come to its end. -/
theorem finish_of_ended {heap heap' : Heap} {r : RequestState} {k : Nat} {result : Except Exn Int}
    (h : r.turns heap k = (ended result, heap')) : r.finish heap = (result, heap') := by
  rw [← finish_turns heap r k, h]
  rfl

theorem exists_turns_writing (statusCode : Int) (version : Nat) :
    ∀ (chunks : List (ChunkInfo AccessBlock)) (heap : Heap),
    ∃ k, ((writing statusCode version chunks).turns heap k).1.Over
  | [], _ => ⟨1, trivial⟩
  | c :: rest, heap => by
    have hturn : (writing statusCode version (c :: rest)).turn heap =
      match c.writeToHeap version (heap c.ptr) with
      | .error e => (ended (.error (escaping e)), heap)
      | .ok chunk => (writing statusCode version rest, Function.update heap c.ptr chunk) := rfl
    cases hwrite : c.writeToHeap version (heap c.ptr) with
    | error e =>
      refine ⟨1, ?_⟩
      rw [turns_succ, hturn, hwrite]
      trivial
    | ok chunk =>
      obtain ⟨k, hk⟩ := exists_turns_writing statusCode version rest
        (Function.update heap c.ptr chunk)
      refine ⟨k + 1, ?_⟩
      rw [turns_succ, hturn, hwrite]
      exact hk

theorem exists_turns_running (heap : Heap) :
    ∀ (program : Program) (m : RestrictedModifier AccessBlock),
    ∃ k, ((running program m).turns heap k).1.Over
  | .ending (.error _), _ => ⟨1, trivial⟩
  | .ending (.ok statusCode), m => by
    obtain ⟨k, hk⟩ := exists_turns_writing statusCode m.currentVersion m.writtenChunks heap
    refine ⟨k + 1, ?_⟩
    rw [turns_succ]
    exact hk
  | .step op next, m => by
    obtain ⟨k, hk⟩ := exists_turns_running heap (next (m.exec heap op).1) (m.exec heap op).2
    refine ⟨k + 1, ?_⟩
    rw [turns_succ]
    exact hk

/-- Every request comes to its end. -/
theorem exists_turns (heap : Heap) : ∀ r : RequestState, ∃ k, (r.turns heap k).1.Over
  | running program m => exists_turns_running heap program m
  | writing statusCode version chunks => exists_turns_writing statusCode version chunks heap
  | ended _ => ⟨0, trivial⟩

end RequestState
end Argennon
