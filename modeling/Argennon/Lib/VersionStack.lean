import Mathlib.Data.List.Basic

/- Stacks of numbered versions with lazy rollback.

   A writer that may be rolled back keeps its contents as a stack of numbered
   entries, the newest on top. Going back to a version only lowers the current
   number; entries above it are dropped when the stack is next used (`sync`). What
   is visible at a version is the topmost entry not above it (`view`). The lemmas
   say that dropping stale entries changes no view, that a write changes only the
   view of its own version and later ones, and when the next version starts with
   what the current one shows. -/
namespace VersionStack

/-- A content and the version it was written at. -/
structure Entry (α : Type*) where
  number : Nat
  content : α

/-- The newest entry is the head. -/
abbrev Stack (α : Type*) := List (Entry α)

variable {α : Type*}

/-- Drop the entries above version `v`. -/
def sync (v : Nat) (s : Stack α) : Stack α := s.dropWhile fun e => v < e.number

/-- The content on top. -/
def top (s : Stack α) : Option α := s.head?.map Entry.content

/-- What is visible at version `v`. -/
def view (v : Nat) (s : Stack α) : Option α := top (sync v s)

/-- Write at version `v` into a stack that was synced to it. -/
def put (v : Nat) (a : α) : Stack α → Stack α
  | [] => [⟨v, a⟩]
  | e :: rest => if e.number = v then ⟨v, a⟩ :: rest else ⟨v, a⟩ :: e :: rest

theorem sync_cons (v : Nat) (e : Entry α) (s : Stack α) :
    sync v (e :: s) = if v < e.number then sync v s else e :: s := by
  by_cases h : v < e.number <;> simp [sync, h]

theorem put_cons (v : Nat) (a : α) (e : Entry α) (s : Stack α) :
    put v a (e :: s) = if e.number = v then ⟨v, a⟩ :: s else ⟨v, a⟩ :: e :: s := rfl

theorem sync_sync (v : Nat) {w : Nat} (h : v ≤ w) (s : Stack α) : sync v (sync w s) = sync v s := by
  induction s with
  | nil => rfl
  | cons e s ih =>
    rw [sync_cons w]
    split
    · rename_i hw
      rw [ih, sync_cons v, if_pos (by omega)]
    · rfl

theorem view_sync {v w : Nat} (h : v ≤ w) (s : Stack α) : view v (sync w s) = view v s := by
  rw [view, sync_sync v h, view]

/-- After a sync the topmost entry is not above the version. -/
theorem sync_head_le {v : Nat} {e : Entry α} : ∀ {s rest : Stack α}, sync v s = e :: rest →
    e.number ≤ v
  | [], _, h => by simp [sync] at h
  | f :: s, rest, h => by
    rw [sync_cons] at h
    split at h
    · exact sync_head_le h
    · rename_i hf
      cases h
      omega

theorem mem_of_mem_sync {v : Nat} {s : Stack α} {e : Entry α} (h : e ∈ sync v s) : e ∈ s :=
  (List.dropWhile_sublist _).subset h

theorem view_put_self (v : Nat) (a : α) (s : Stack α) : view v (put v a s) = some a := by
  cases s with
  | nil => simp [view, put, top, sync_cons]
  | cons e s =>
    rw [put_cons]
    split <;> simp [view, top, sync_cons]

/-- A write at `v` is not visible at an earlier version. -/
theorem view_put_of_lt {v w : Nat} (h : w < v) (a : α) (s : Stack α) :
    view w (put v a s) = view w s := by
  cases s with
  | nil => simp [view, put, h, sync]
  | cons e s =>
    rw [put_cons]
    split
    · rename_i he
      simp only [view, sync_cons, if_pos h, he]
    · rw [view, sync_cons, if_pos h, view]

/-- A version starts with the content of the one before it when no entry has its number. -/
theorem view_succ {v : Nat} {s : Stack α} (h : ∀ e ∈ s, e.number ≠ v + 1) :
    view (v + 1) s = view v s := by
  induction s with
  | nil => rfl
  | cons e s ih =>
    have he := h e List.mem_cons_self
    have ih := ih fun f hf => h f (List.mem_cons_of_mem _ hf)
    unfold view at ih ⊢
    rw [sync_cons, sync_cons]
    by_cases hlt : v + 1 < e.number
    · rw [if_pos hlt, if_pos (by omega), ih]
    · rw [if_neg hlt, if_neg (by omega)]

/-- What every entry satisfies, the visible content satisfies. -/
theorem view_of_forall {P : α → Prop} {v : Nat} {s : Stack α} (h : ∀ e ∈ s, P e.content) :
    ∀ a ∈ view v s, P a := by
  intro a ha
  rw [view, top, Option.mem_def, Option.map_eq_some_iff] at ha
  obtain ⟨e, he, rfl⟩ := ha
  exact h e (mem_of_mem_sync (List.mem_of_mem_head? he))

theorem forall_put {P : α → Prop} {v : Nat} {a : α} {s : Stack α} (h : ∀ e ∈ s, P e.content)
    (ha : P a) :
    ∀ e ∈ put v a s, P e.content := by
  cases s with
  | nil => simpa [put] using ha
  | cons f s =>
    obtain ⟨hf, hs⟩ := List.forall_mem_cons.mp h
    rw [put_cons]
    split
    · exact List.forall_mem_cons.mpr ⟨ha, hs⟩
    · exact List.forall_mem_cons.mpr ⟨ha, h⟩

end VersionStack
