import Mathlib.Logic.Basic

/- Actions on a state that may fail, and that may change places.

   Two actions commute where one after the other gives the same in both orders, failures included.
   What is made of actions that commute with an action commutes with it (`CommutesOn.bind`,
   `CommutesOn.foldlM`). An action is steady where it fails in the same way in all states. Actions
   that commute and are steady do not see each other (`CommutesOn.swaps`). -/
namespace CommutingActions
variable {ε S α β : Type} {P : S → Prop} {f f' g : S → Except ε S}

/-- In both orders the actions give the same, from the states in `P`. -/
def CommutesOn (P : S → Prop) (f g : S → Except ε S) : Prop := ∀ s, P s → (f s >>= g) = (g s >>= f)

/-- An action that does not fail leaves `P`. -/
def Preserves (P : S → Prop) (f : S → Except ε S) : Prop := ∀ s s', P s → f s = .ok s' → P s'

/-- If the action fails, it fails everywhere. -/
def Steady (P : S → Prop) (f : S → Except ε S) : Prop :=
  ∀ s s' e, P s → P s' → f s = .error e → f s' = .error e

theorem CommutesOn.symm (h : CommutesOn P f g) : CommutesOn P g f := fun s hs => (h s hs).symm

theorem CommutesOn.pure_left (g : S → Except ε S) : CommutesOn P .ok g := fun s _ => by
  change g s = g s >>= Except.ok
  cases g s <;> rfl

/-- Two actions one after the other. -/
theorem CommutesOn.bind (hkeeps : Preserves P f) (h : CommutesOn P f g) (h' : CommutesOn P f' g) :
    CommutesOn P (fun s => f s >>= f') g := by
  intro s hs
  have hfirst : ((f s >>= f') >>= g) = ((f s >>= g) >>= f') := by
    cases hf : f s with
    | error e => rfl
    | ok t => exact h' t (hkeeps s t hs hf)
  have hassoc : ((g s >>= f) >>= f') = (g s >>= fun t => f t >>= f') := by cases g s <;> rfl
  rw [hfirst, h s hs, hassoc]

theorem Preserves.bind (hf : Preserves P f) (hf' : Preserves P f') :
    Preserves P fun s => f s >>= f' := by
  intro s u hs hu
  cases hfs : f s with
  | error e =>
    simp only [hfs] at hu
    cases hu
  | ok t =>
    simp only [hfs] at hu
    exact hf' t u (hf s t hs hfs) hu

theorem Preserves.foldlM {f : S → α → Except ε S} : ∀ {l : List α}, (∀ a ∈ l, Preserves P (f · a)) →
    Preserves P fun s => l.foldlM f s
  | [], _ => fun s s' hs h => by
    obtain rfl := Except.ok.inj h
    exact hs
  | a :: l, h => by
    obtain ⟨ha, hl⟩ := List.forall_mem_cons.mp h
    exact Preserves.bind ha (Preserves.foldlM hl)

theorem Steady.pure : Steady P (.ok : S → Except ε S) := fun s s' e _ _ h => by cases h

theorem Steady.bind (hkeeps : Preserves P f) (h : Steady P f) (h' : Steady P f') :
    Steady P fun s => f s >>= f' := by
  intro s s' e hs hs' he
  cases hf : f s with
  | error x =>
    simp only [hf] at he
    obtain rfl : x = e := Except.error.inj he
    have hf' := h s s' x hs hs' hf
    simp only [hf']
    rfl
  | ok t =>
    simp only [hf] at he
    cases hf' : f s' with
    | error x =>
      -- it would fail in the first state too
      rw [h s' s x hs' hs hf'] at hf
      cases hf
    | ok t' =>
      simp only [hf']
      exact h' t t' e (hkeeps s t hs hf) (hkeeps s' t' hs' hf') he

theorem Steady.foldlM {f : S → α → Except ε S} : ∀ {l : List α}, (∀ a ∈ l, Preserves P (f · a)) →
    (∀ a ∈ l, Steady P (f · a)) →
    Steady P fun s => l.foldlM f s
  | [], _, _ => Steady.pure
  | a :: l, hkeeps, h => by
    obtain ⟨hkeep, hkeeps⟩ := List.forall_mem_cons.mp hkeeps
    obtain ⟨ha, hl⟩ := List.forall_mem_cons.mp h
    exact Steady.bind hkeep ha (Steady.foldlM hkeeps hl)

/-- A loop whose turns commute with an action. -/
theorem CommutesOn.foldlM {f : S → α → Except ε S} :
    ∀ {l : List α}, (∀ a ∈ l, Preserves P (f · a)) →
    (∀ a ∈ l, CommutesOn P (f · a) g) → CommutesOn P (fun s => l.foldlM f s) g
  | [], _, _ => CommutesOn.pure_left g
  | a :: l, hkeeps, h => by
    obtain ⟨hkeep, hkeeps⟩ := List.forall_mem_cons.mp hkeeps
    obtain ⟨ha, hl⟩ := List.forall_mem_cons.mp h
    exact CommutesOn.bind hkeep ha (CommutesOn.foldlM hkeeps hl)

/-- Two loops whose turns commute. -/
theorem CommutesOn.foldlM₂ {f : S → α → Except ε S} {g : S → β → Except ε S} {l : List α}
    {l' : List β}
    (hf : ∀ a ∈ l, Preserves P (f · a)) (hg : ∀ b ∈ l', Preserves P (g · b))
    (h : ∀ a ∈ l, ∀ b ∈ l', CommutesOn P (f · a) (g · b)) :
    CommutesOn P (fun s => l.foldlM f s) fun s => l'.foldlM g s :=
  CommutesOn.foldlM hf fun a ha => (CommutesOn.foldlM hg fun b hb => (h a ha b hb).symm).symm

/-! ## One state -/

/-- From this state the actions do not see each other. -/
structure Swaps (f g : S → Except ε S) (s : S) : Prop where
  both : (f s >>= g) = (g s >>= f)
  left : ∀ t, g s = .ok t → ∀ e, f t = .error e ↔ f s = .error e
  right : ∀ t, f s = .ok t → ∀ e, g t = .error e ↔ g s = .error e

theorem CommutesOn.swaps (h : CommutesOn P f g) (hf : Preserves P f) (hg : Preserves P g)
    (hf' : Steady P f) (hg' : Steady P g) {s : S}
    (hs : P s) : Swaps f g s where
  both := h s hs
  left t ht e := ⟨hf' t s e (hg s t hs ht) hs, hf' s t e hs (hg s t hs ht)⟩
  right t ht e := ⟨hg' t s e (hf s t hs ht) hs, hg' s t e hs (hf s t hs ht)⟩

namespace Swaps
variable {s s₁ s₂ : S}

theorem symm (h : Swaps f g s) : Swaps g f s := ⟨h.both.symm, h.right, h.left⟩

/-- Actions that do the same in the states that are met. -/
theorem congr {f₁ g₁ : S → Except ε S} (h : Swaps f g s) (hf : f₁ s = f s) (hg : g₁ s = g s)
    (hf' : ∀ t, g s = .ok t → f₁ t = f t)
    (hg' : ∀ t, f s = .ok t → g₁ t = g t) : Swaps f₁ g₁ s := by
  refine ⟨?_, fun t ht e => ?_, fun t ht e => ?_⟩
  · have hleft : (f s >>= g₁) = (f s >>= g) := by
      cases hfs : f s with
      | error e => rfl
      | ok t => exact hg' t hfs
    have hright : (g s >>= f₁) = (g s >>= f) := by
      cases hgs : g s with
      | error e => rfl
      | ok t => exact hf' t hgs
    rw [hf, hg, hleft, hright, h.both]
  · rw [hg] at ht
    rw [hf' t ht, hf]
    exact h.left t ht e
  · rw [hf] at ht
    rw [hg' t ht, hg]
    exact h.right t ht e

/-- Both actions succeed in both orders, and end in the same state. -/
theorem of_ok (h : Swaps f g s) (hf : f s = .ok s₁) (hg : g s = .ok s₂) :
    ∃ t, g s₁ = .ok t ∧ f s₂ = .ok t := by
  have hboth := h.both
  rw [hf, hg] at hboth
  have hboth : g s₁ = f s₂ := hboth
  cases hlast : g s₁ with
  | error e =>
    rw [(h.right s₁ hf e).mp hlast] at hg
    cases hg
  | ok t => exact ⟨t, rfl, hboth ▸ hlast⟩

end Swaps

/-! ## Actions that leave the state when they fail -/

/-- The state that is left; it is the old one if the action fails. -/
def attempt (f : S → Except ε S) (s : S) : S :=
  match f s with
  | .ok t => t
  | .error _ => s

theorem attempt_ok {s t : S} (h : f s = .ok t) : attempt f s = t := by rw [attempt, h]

theorem attempt_error {s : S} {e : ε} (h : f s = .error e) : attempt f s = s := by rw [attempt, h]

theorem Swaps.attempt {s : S} (h : Swaps f g s) :
    attempt f (attempt g s) = attempt g (attempt f s) := by
  cases hf : f s with
  | error e =>
    rw [attempt_error hf]
    cases hg : g s with
    | error e' => rw [attempt_error hg, attempt_error hf]
    | ok t => rw [attempt_ok hg, attempt_error ((h.left t hg e).mpr hf)]
  | ok t =>
    rw [attempt_ok hf]
    cases hg : g s with
    | error e => rw [attempt_error hg, attempt_error ((h.right t hf e).mpr hg), attempt_ok hf]
    | ok t' =>
      obtain ⟨u, hu, hu'⟩ := h.of_ok hf hg
      rw [attempt_ok hg, attempt_ok hu, attempt_ok hu']

end CommutingActions
