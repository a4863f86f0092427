import Mathlib.Data.List.Nodup
import Mathlib.Logic.Function.Basic

/- Locks that are held by the calls of a stack.

   A call runs for a key and may hold the lock of that key. The table says which keys are
   locked; each call says whether it holds a lock. The two accounts agree, and no key is held
   twice, when a call is pushed without a lock, only the innermost call takes and gives back
   locks, and a call is popped when it holds none. -/
namespace LockStack
variable {κ : Type*}

/-- The keys whose locks are held. -/
def held : List (κ × Bool) → List κ
  | [] => []
  | (k, true) :: calls => k :: held calls
  | (_, false) :: calls => held calls

/-- The two accounts of the locks agree. -/
structure Sound (locked : κ → Bool) (calls : List (κ × Bool)) : Prop where
  nodup : (held calls).Nodup
  locked_iff : ∀ k, locked k = true ↔ k ∈ held calls

theorem mem_held {k : κ} : ∀ {calls : List (κ × Bool)}, k ∈ held calls ↔ (k, true) ∈ calls
  | [] => by simp [held]
  | (j, true) :: calls => by
    have ih : k ∈ held calls ↔ _ := mem_held
    simp [held, ih]
  | (j, false) :: calls => by
    have ih : k ∈ held calls ↔ _ := mem_held
    simp [held, ih]

/-- Two calls do not hold the same lock. -/
theorem pairwise_of_nodup : ∀ {calls : List (κ × Bool)}, (held calls).Nodup →
    calls.Pairwise fun c d => c.2 = true → d.2 = true → c.1 ≠ d.1
  | [], _ => .nil
  | (k, true) :: calls, h => by
    obtain ⟨hk, hrest⟩ := List.nodup_cons.mp h
    refine .cons (fun d hd _ hlock heq => hk (mem_held.mpr ?_)) (pairwise_of_nodup hrest)
    obtain ⟨j, b⟩ := d
    obtain rfl : k = j := heq
    obtain rfl : b = true := hlock
    exact hd
  | (k, false) :: calls, h => .cons (fun _ _ hlock => nomatch hlock) (pairwise_of_nodup h)

theorem sound_free (k : κ) : Sound (fun _ => false) [(k, false)] := ⟨.nil, fun k => by simp [held]⟩

theorem Sound.push {locked : κ → Bool} {calls : List (κ × Bool)} (h : Sound locked calls) (k : κ) :
    Sound locked ((k, false) :: calls) := ⟨h.nodup, h.locked_iff⟩

theorem Sound.pop {locked : κ → Bool} {calls : List (κ × Bool)} {k : κ}
    (h : Sound locked ((k, false) :: calls)) :
    Sound locked calls := ⟨h.nodup, h.locked_iff⟩

variable [DecidableEq κ] {locked : κ → Bool} {calls : List (κ × Bool)} {k : κ}

/-- The innermost call takes a lock that is free. -/
theorem Sound.acquire (h : Sound locked ((k, false) :: calls)) (hfree : locked k = false) :
    Sound (Function.update locked k true) ((k, true) :: calls) := by
  have hnot : k ∉ held calls := fun hk => by simp [(h.locked_iff k).mpr hk] at hfree
  refine ⟨List.nodup_cons.mpr ⟨hnot, h.nodup⟩, fun j => ?_⟩
  obtain rfl | hne := eq_or_ne j k
  · simp [held]
  · rw [Function.update_of_ne hne]
    exact (h.locked_iff j).trans (by simp [held, hne])

/-- The innermost call gives its lock back. -/
theorem Sound.release (h : Sound locked ((k, true) :: calls)) :
    Sound (Function.update locked k false) ((k, false) :: calls) := by
  obtain ⟨hk, hrest⟩ := List.nodup_cons.mp h.nodup
  refine ⟨hrest, fun j => ?_⟩
  obtain rfl | hne := eq_or_ne j k
  · simpa [held] using hk
  · rw [Function.update_of_ne hne]
    exact (h.locked_iff j).trans (by simp [held, hne])

end LockStack
