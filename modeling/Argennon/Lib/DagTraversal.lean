import Mathlib.Algebra.Order.Group.Multiset
import Mathlib.Data.Multiset.Filter
import Mathlib.Data.Multiset.UnionInter
import Mathlib.Data.List.Nodup
import Mathlib.Order.WellFoundedSet
import Mathlib.Tactic.Abel

/- The traversal of a graph by several workers, each of which takes a vertex from a
   queue, works on it, releases its edges one by one, and enqueues a vertex when its last
   edge is released. Workers interleave in any order, and one may stop while it works on
   its vertex, whose edges are then never released.

   A vertex is a token when it is in the queue, carried to it, held by a worker, or done.
   No vertex is ever two tokens, and what becomes a token has had all its edges
   released: so it has only finitely many ancestors in every direction. -/
namespace DagTraversal

variable {V : Type*}

/-- Where a worker is. -/
inductive Phase (V : Type*) where
  | idle
  | working (v : V)
  /-- The edges of `v` to `rest` are not released. -/
  | releasing (v : V) (rest : List V)
  /-- The last edge to `next` was released. -/
  | sending (v next : V) (rest : List V)
  | leaving (v : V)
  /-- The worker holds `v` for ever. -/
  | stopped (v : V)
  | out

namespace Phase

/-- The vertex that a worker holds. -/
def holds : Phase V → Option V
  | working v | releasing v _ | sending v _ _ | leaving v | stopped v => some v
  | _ => none

/-- The vertex that a worker carries to the queue. -/
def carries : Phase V → Option V
  | sending _ next _ => some next
  | _ => none

/-- The worker has released the edge from `u` to `x`. -/
def Released (u x : V) : Phase V → Prop
  | releasing v rest | sending v _ rest => v = u ∧ x ∉ rest
  | leaving v => v = u
  | _ => False

theorem Released.holds {u x : V} {w : Phase V} (h : w.Released u x) : w.holds = some u := by
  cases w with
  | releasing v rest => exact congrArg some h.1
  | sending v next rest => exact congrArg some h.1
  | leaving v => exact congrArg some h
  | _ => exact h.elim

end Phase

/-- The queue, the workers, and the vertices whose edges are all released. -/
structure Config (V : Type*) where
  queue : List V
  workers : Multiset (Phase V)
  done : List V

namespace Config

/-- The vertices that were ever ready. -/
def tokens (c : Config V) : Multiset V :=
  c.queue + c.workers.filterMap Phase.carries + c.workers.filterMap Phase.holds + c.done

/-- The edge from `u` to `x` is released. -/
def Released (c : Config V) (u x : V) : Prop := u ∈ c.done ∨ ∃ w ∈ c.workers, w.Released u x

/-- Nobody has a vertex, and none is left. -/
def Drained (c : Config V) : Prop := c.queue = [] ∧ c.workers.filterMap Phase.holds = 0

end Config

/-- A step of one of the workers. -/
inductive Step (adj : V → List V) : Config V → Config V → Prop
  | take (v q ws d) : Step adj ⟨v :: q, .idle ::ₘ ws, d⟩ ⟨q, .working v ::ₘ ws, d⟩
  | stop (v q ws d) : Step adj ⟨q, .working v ::ₘ ws, d⟩ ⟨q, .stopped v ::ₘ ws, d⟩
  | accept (v q ws d) : Step adj ⟨q, .working v ::ₘ ws, d⟩ ⟨q, .releasing v (adj v) ::ₘ ws, d⟩
  | release (v x rest q ws d) (h : ∃ u, u ≠ v ∧ x ∈ adj u ∧
    ¬ Config.Released ⟨q, .releasing v (x :: rest) ::ₘ ws, d⟩ u x) :
    Step adj ⟨q, .releasing v (x :: rest) ::ₘ ws, d⟩ ⟨q, .releasing v rest ::ₘ ws, d⟩
  | releaseLast (v x rest q ws d)
    (h : ∀ u, u ≠ v → x ∈ adj u → Config.Released ⟨q, .releasing v (x :: rest) ::ₘ ws, d⟩ u x) :
    Step adj ⟨q, .releasing v (x :: rest) ::ₘ ws, d⟩ ⟨q, .sending v x rest ::ₘ ws, d⟩
  | send (v x rest q ws d) :
    Step adj ⟨q, .sending v x rest ::ₘ ws, d⟩ ⟨q ++ [x], .releasing v rest ::ₘ ws, d⟩
  | leave (v q ws d) : Step adj ⟨q, .releasing v [] ::ₘ ws, d⟩ ⟨q, .leaving v ::ₘ ws, d⟩
  | complete (v q ws d) : Step adj ⟨q, .leaving v ::ₘ ws, d⟩ ⟨q, .idle ::ₘ ws, v :: d⟩
  | drain (ws d) (h : ws.filterMap Phase.holds = 0) :
    Step adj ⟨[], .idle ::ₘ ws, d⟩ ⟨[], .out ::ₘ ws, d⟩

/-- What holds of every configuration that is reached from the queue `init` and idle workers. -/
structure Sound (adj : V → List V) (init : List V) (c : Config V) : Prop where
  nodup : c.tokens.Nodup
  /-- What is left of the edges of a vertex. -/
  left : ∀ w ∈ c.workers, ∀ v rest, (w = .releasing v rest ∨ ∃ next, w = .sending v next rest) →
    rest <:+ adj v
  ready : ∀ x ∈ c.tokens, ∀ u, x ∈ adj u → c.Released u x
  blocked : ∀ x, x ∉ c.tokens → x ∉ init ∧ ((∃ u, x ∈ adj u ∧ ¬ c.Released u x) ∨ ∀ u, x ∉ adj u)
  origin : ∀ x ∈ c.tokens, x ∈ init ∨ ∃ u, x ∈ adj u
  acc : ∀ x ∈ c.tokens, Acc (fun u x => x ∈ adj u) x
  drained : .out ∈ c.workers → c.Drained

/-! ## One worker and the others -/

section
variable {q : List V} {w : Phase V} {ws : Multiset (Phase V)} {d : List V}

theorem tokens_worker : Config.tokens ⟨q, w ::ₘ ws, d⟩ =
    (w.carries.elim 0 fun x => {x}) + (w.holds.elim 0 fun x => {x}) + Config.tokens ⟨q, ws, d⟩ := by
  unfold Config.tokens
  cases hc : w.carries with
  | none =>
    cases hh : w.holds with
    | none => simp [Multiset.filterMap_cons_none, hc, hh]
    | some v =>
      simp only [Multiset.filterMap_cons_none _ _ hc, Multiset.filterMap_cons_some _ _ _ hh,
        Option.elim, zero_add]
      rw [← Multiset.singleton_add]
      abel
  | some x =>
    cases hh : w.holds with
    | none =>
      simp only [Multiset.filterMap_cons_some _ _ _ hc, Multiset.filterMap_cons_none _ _ hh,
        Option.elim, add_zero]
      rw [← Multiset.singleton_add]
      abel
    | some v =>
      simp only [Multiset.filterMap_cons_some _ _ _ hc, Multiset.filterMap_cons_some _ _ _ hh,
        Option.elim]
      rw [← Multiset.singleton_add, ← Multiset.singleton_add]
      abel

theorem tokens_queue_cons (v : V) :
    Config.tokens ⟨v :: q, ws, d⟩ = {v} + Config.tokens ⟨q, ws, d⟩ := by
  unfold Config.tokens
  rw [← Multiset.cons_coe, ← Multiset.singleton_add]
  abel

theorem tokens_queue_append (v : V) :
    Config.tokens ⟨q ++ [v], ws, d⟩ = {v} + Config.tokens ⟨q, ws, d⟩ := by
  unfold Config.tokens
  rw [← Multiset.coe_add, Multiset.coe_singleton]
  abel

theorem tokens_done_cons (v : V) :
    Config.tokens ⟨q, ws, v :: d⟩ = {v} + Config.tokens ⟨q, ws, d⟩ := by
  unfold Config.tokens
  rw [← Multiset.cons_coe, ← Multiset.singleton_add]
  abel

theorem released_worker {u x : V} :
    Config.Released ⟨q, w ::ₘ ws, d⟩ u x ↔ w.Released u x ∨ Config.Released ⟨q, ws, d⟩ u x := by
  unfold Config.Released
  simp only [Multiset.mem_cons, exists_eq_or_imp]
  exact or_left_comm

theorem drained_worker : Config.Drained ⟨q, w ::ₘ ws, d⟩ ↔ w.holds = none ∧
    Config.Drained ⟨q, ws, d⟩ := by
  unfold Config.Drained
  cases h : w.holds with
  | none => simp [Multiset.filterMap_cons_none _ _ h]
  | some v => simp [Multiset.filterMap_cons_some _ _ _ h]

end

theorem mem_tokens_of_holds {c : Config V} {w : Phase V} {v : V} (hw : w ∈ c.workers)
    (h : w.holds = some v) :
    v ∈ c.tokens := by
  unfold Config.tokens
  simp only [Multiset.mem_add, Multiset.mem_filterMap]
  exact .inl (.inr ⟨w, hw, h⟩)

theorem mem_tokens_of_done {c : Config V} {v : V} (h : v ∈ c.done) : v ∈ c.tokens := by
  unfold Config.tokens
  simp only [Multiset.mem_add, Multiset.mem_coe]
  exact .inr h

/-- An edge is released by the one who has its first vertex, or had it. -/
theorem Config.Released.mem_tokens {c : Config V} {u x : V} (h : c.Released u x) :
    u ∈ c.tokens := by
  obtain h | ⟨w, hw, hrel⟩ := h
  · exact mem_tokens_of_done h
  · exact mem_tokens_of_holds hw hrel.holds

/-- The worker that holds a vertex releases its edges, nobody else. -/
theorem released_holder {q : List V} {w : Phase V} {ws : Multiset (Phase V)} {d : List V} {v : V}
    (hnodup : (Config.tokens ⟨q, w ::ₘ ws, d⟩).Nodup) (h : w.holds = some v) (x : V) :
    Config.Released ⟨q, w ::ₘ ws, d⟩ v x ↔ w.Released v x := by
  rw [released_worker, or_iff_left]
  intro hrel
  have hmem := hrel.mem_tokens
  rw [tokens_worker, h, Option.elim_some, add_assoc, Multiset.singleton_add,
    Multiset.nodup_add] at hnodup
  exact (Multiset.nodup_cons.mp hnodup.2.1).1 hmem

/-! ## Steps -/

variable {adj : V → List V} {init : List V} {c t : Config V}

/-- A step that makes no new token and releases no edge. -/
theorem Sound.same (h : Sound adj init c) (htokens : t.tokens = c.tokens)
    (hreleased : ∀ u x, x ∈ adj u → (t.Released u x ↔ c.Released u x))
    (hleft : ∀ w ∈ t.workers, ∀ v rest, (w = .releasing v rest ∨ ∃ next, w = .sending v next rest) →
      rest <:+ adj v)
    (hdrained : .out ∈ t.workers → t.Drained) : Sound adj init t where
  nodup := htokens ▸ h.nodup
  left := hleft
  ready x hx u hu := (hreleased u x hu).mpr (h.ready x (htokens ▸ hx) u hu)
  blocked x hx := by
    rw [htokens] at hx
    refine (h.blocked x hx).imp_right fun hb => ?_
    obtain ⟨u, hu, hnot⟩ | hnone := hb
    · exact .inl ⟨u, hu, fun hr => hnot ((hreleased u x hu).mp hr)⟩
    · exact .inr hnone
  origin x hx := h.origin x (htokens ▸ hx)
  acc x hx := h.acc x (htokens ▸ hx)
  drained := hdrained

theorem Sound.left_worker {q : List V} {w w' : Phase V} {ws : Multiset (Phase V)} {d q' d' : List V}
    (h : Sound adj init ⟨q, w ::ₘ ws, d⟩)
    (hw' : ∀ v rest, (w' = .releasing v rest ∨ ∃ next, w' = .sending v next rest) →
      rest <:+ adj v) :
    ∀ w'' ∈ (Config.mk q' (w' ::ₘ ws) d').workers, ∀ v rest,
      (w'' = .releasing v rest ∨ ∃ next, w'' = .sending v next rest) → rest <:+ adj v := by
  intro w'' hmem
  obtain rfl | hmem := Multiset.mem_cons.mp hmem
  · exact hw'
  · exact h.left w'' (Multiset.mem_cons_of_mem hmem)

/-- While a worker holds a vertex nobody is out. -/
theorem Sound.not_out {q : List V} {w : Phase V} {ws : Multiset (Phase V)} {d : List V} {v : V}
    (h : Sound adj init ⟨q, w ::ₘ ws, d⟩) (hw : w.holds = some v) : .out ∉ ws := by
  intro hout
  have := (drained_worker.mp (h.drained (Multiset.mem_cons_of_mem hout))).1
  rw [hw] at this
  cases this

/-- A step from the phase `w` to `w'` of one worker that makes no new token. -/
theorem Sound.worker {q : List V} {w w' : Phase V} {ws : Multiset (Phase V)} {d : List V} {v : V}
    (h : Sound adj init ⟨q, w ::ₘ ws, d⟩) (hholds : w.holds = some v) (hholds' : w'.holds = some v)
    (hcarries : w.carries = none) (hcarries' : w'.carries = none)
    (hreleased : ∀ u x, x ∈ adj u → (w'.Released u x ↔ w.Released u x))
    (hleft : ∀ v rest, (w' = .releasing v rest ∨ ∃ next, w' = .sending v next rest) →
      rest <:+ adj v) :
    Sound adj init ⟨q, w' ::ₘ ws, d⟩ := by
  apply h.same
  · rw [tokens_worker, tokens_worker, hholds, hholds', hcarries, hcarries']
  · intro u x hx
    rw [released_worker, released_worker, hreleased u x hx]
  · exact h.left_worker hleft
  · intro hout
    obtain hout | hout := Multiset.mem_cons.mp hout
    · subst hout
      cases hholds'
    · exact absurd hout (h.not_out hholds)

/-- The edges that are released when `v` has released its edge to `x`. -/
theorem released_release (q : List V) (ws : Multiset (Phase V)) (d : List V) {w' : Phase V}
    {rest : List V} {v x : V} (hx : x ∉ rest)
    (hw' : ∀ u y, w'.Released u y ↔ v = u ∧ y ∉ rest) (u y : V) :
    Config.Released ⟨q, w' ::ₘ ws, d⟩ u y ↔
      Config.Released ⟨q, .releasing v (x :: rest) ::ₘ ws, d⟩ u y ∨ v = u ∧ y = x := by
  have hsplit : (v = u ∧ y ∉ rest) ↔ (v = u ∧ y ∉ x :: rest) ∨ v = u ∧ y = x := by
    rw [List.mem_cons, ← and_or_left]
    refine and_congr_right fun _ => ⟨fun hy => ?_, fun hy => ?_⟩
    · by_cases hyx : y = x
      · exact .inr hyx
      · exact .inl fun h => h.elim hyx hy
    · obtain hy | rfl := hy
      · exact fun h => hy (.inr h)
      · exact hx
  rw [released_worker, released_worker, hw', hsplit, or_assoc, or_assoc]
  exact or_congr_right or_comm

/-- A worker releases an edge that is not the last one to its vertex. -/
theorem Sound.release {q : List V} {ws : Multiset (Phase V)} {d rest : List V} {v x : V}
    (hadj : ∀ v, (adj v).Nodup) (h : Sound adj init ⟨q, .releasing v (x :: rest) ::ₘ ws, d⟩)
    (hother : ∃ u, u ≠ v ∧ x ∈ adj u ∧
      ¬ Config.Released ⟨q, .releasing v (x :: rest) ::ₘ ws, d⟩ u x) :
    Sound adj init ⟨q, .releasing v rest ::ₘ ws, d⟩ := by
  have hsuffix := h.left _ (Multiset.mem_cons_self _ _) v (x :: rest) (.inl rfl)
  have hx : x ∉ rest := (List.nodup_cons.mp (hsuffix.sublist.nodup (hadj v))).1
  have hrel := released_release q ws d hx
    (fun u y => Iff.rfl : ∀ u y, (Phase.releasing v rest).Released u y ↔ _)
  -- no token appears or goes: the worker still holds `v`
  have htokens : Config.tokens ⟨q, .releasing v rest ::ₘ ws, d⟩ =
      Config.tokens ⟨q, .releasing v (x :: rest) ::ₘ ws, d⟩ := by
    rw [tokens_worker, tokens_worker]
    rfl
  exact
    { nodup := htokens ▸ h.nodup
      left := h.left_worker fun v' rest' hw' => by
        obtain hw' | ⟨next, hw'⟩ := hw'
        · cases hw'
          exact (List.suffix_cons x rest).trans hsuffix
        · cases hw'
      ready := fun y hy u hu => (hrel u y).mpr (.inl (h.ready y (htokens ▸ hy) u hu))
      blocked := fun y hy => by
        rw [htokens] at hy
        refine (h.blocked y hy).imp_right fun hb => ?_
        obtain ⟨u, hu, hnot⟩ | hnone := hb
        · -- `x` stays blocked by the other edge to it
          by_cases hyx : y = x
          · subst hyx
            obtain ⟨u', hne, hu', hnot'⟩ := hother
            exact .inl ⟨u', hu', fun hr => ((hrel u' y).mp hr).elim hnot' fun h => hne h.1.symm⟩
          · exact .inl ⟨u, hu, fun hr => ((hrel u y).mp hr).elim hnot fun h => hyx h.2⟩
        · exact .inr hnone
      origin := fun y hy => h.origin y (htokens ▸ hy)
      acc := fun y hy => h.acc y (htokens ▸ hy)
      drained := fun hout => by
        obtain hout | hout := Multiset.mem_cons.mp hout
        · cases hout
        · exact absurd hout (h.not_out rfl) }

/-- A vertex with an edge that is not released is no token. -/
theorem Sound.not_mem_of_not_released (h : Sound adj init c) {u x : V} (hx : x ∈ adj u)
    (hnot : ¬ c.Released u x) :
    x ∉ c.tokens := fun hmem => hnot (h.ready x hmem u hx)

/-- The edge that a worker is about to release is not released. -/
theorem Sound.not_released {q : List V} {ws : Multiset (Phase V)} {d rest : List V} {v x : V}
    (h : Sound adj init ⟨q, .releasing v (x :: rest) ::ₘ ws, d⟩) :
    ¬ Config.Released ⟨q, .releasing v (x :: rest) ::ₘ ws, d⟩ v x := by
  rw [released_holder h.nodup rfl]
  exact fun hr => hr.2 List.mem_cons_self

/-- A worker releases the last edge to a vertex: a new token. -/
theorem Sound.releaseLast {q : List V} {ws : Multiset (Phase V)} {d rest : List V} {v x : V}
    (hadj : ∀ v, (adj v).Nodup) (h : Sound adj init ⟨q, .releasing v (x :: rest) ::ₘ ws, d⟩)
    (hall : ∀ u, u ≠ v → x ∈ adj u → Config.Released ⟨q, .releasing v (x :: rest) ::ₘ ws, d⟩ u x) :
    Sound adj init ⟨q, .sending v x rest ::ₘ ws, d⟩ := by
  have hsuffix := h.left _ (Multiset.mem_cons_self _ _) v (x :: rest) (.inl rfl)
  have hxv : x ∈ adj v := hsuffix.subset List.mem_cons_self
  have hx : x ∉ rest := (List.nodup_cons.mp (hsuffix.sublist.nodup (hadj v))).1
  have hrel := released_release q ws d hx
    (fun u y => Iff.rfl : ∀ u y, (Phase.sending v x rest).Released u y ↔ _)
  -- `x` was no token, for the edge from `v` was not released
  have hnew := h.not_mem_of_not_released hxv h.not_released
  have htokens : Config.tokens ⟨q, .sending v x rest ::ₘ ws, d⟩ =
      x ::ₘ Config.tokens ⟨q, .releasing v (x :: rest) ::ₘ ws, d⟩ := by
    rw [tokens_worker, tokens_worker, ← Multiset.singleton_add]
    simp only [Phase.carries, Phase.holds, Option.elim, zero_add, add_assoc]
  have hready : ∀ u, x ∈ adj u → u = v ∨
      Config.Released ⟨q, .releasing v (x :: rest) ::ₘ ws, d⟩ u x := fun u hu =>
    (eq_or_ne u v).imp_right fun hne => hall u hne hu
  exact
    { nodup := by
        rw [htokens]
        exact Multiset.nodup_cons.mpr ⟨hnew, h.nodup⟩
      left := h.left_worker fun v' rest' hw' => by
        obtain hw' | ⟨next, hw'⟩ := hw'
        · cases hw'
        · cases hw'
          exact (List.suffix_cons x rest).trans hsuffix
      ready := fun y hy u hu => by
        rw [htokens] at hy
        rw [hrel]
        obtain rfl | hy := Multiset.mem_cons.mp hy
        · exact (hready u hu).symm.imp_right fun hu => ⟨hu.symm, rfl⟩
        · exact .inl (h.ready y hy u hu)
      blocked := fun y hy => by
        rw [htokens, Multiset.mem_cons, not_or] at hy
        refine (h.blocked y hy.2).imp_right fun hb => ?_
        obtain ⟨u, hu, hnot⟩ | hnone := hb
        · exact .inl ⟨u, hu, fun hr => ((hrel u y).mp hr).elim hnot fun h => hy.1 h.2⟩
        · exact .inr hnone
      origin := fun y hy => by
        rw [htokens] at hy
        obtain rfl | hy := Multiset.mem_cons.mp hy
        · exact .inr ⟨v, hxv⟩
        · exact h.origin y hy
      acc := fun y hy => by
        rw [htokens] at hy
        obtain rfl | hy := Multiset.mem_cons.mp hy
        · -- the sources of all edges to `x` are tokens, so they are accessible
          refine Acc.intro y fun u hu => ?_
          obtain rfl | hr := hready u hu
          · exact h.acc u (mem_tokens_of_holds (Multiset.mem_cons_self _ _) rfl)
          · exact h.acc u hr.mem_tokens
        · exact h.acc y hy
      drained := fun hout => by
        obtain hout | hout := Multiset.mem_cons.mp hout
        · cases hout
        · exact absurd hout (h.not_out rfl) }

/-- **Step.** Every step keeps the invariant. -/
theorem Sound.step (hadj : ∀ v, (adj v).Nodup) (h : Sound adj init c) (hstep : Step adj c t) :
    Sound adj init t := by
  cases hstep with
  -- where the tokens and the released edges stay the same, `same` gives the rest
  | take v q ws d =>
    apply h.same
    · rw [tokens_worker, tokens_queue_cons, tokens_worker]
      simp [Phase.carries, Phase.holds]
    · intro u x _
      rw [released_worker, released_worker]
      exact Iff.rfl
    · exact h.left_worker fun v rest hw => by obtain hw | ⟨next, hw⟩ := hw <;> cases hw
    · intro hout
      obtain hout | hout := Multiset.mem_cons.mp hout
      · cases hout
      · have := (h.drained (Multiset.mem_cons_of_mem hout)).1
        cases this
  | stop v q ws d =>
    exact h.worker rfl rfl rfl rfl (fun _ _ _ => Iff.rfl) fun v rest hw => by
      obtain hw | ⟨next, hw⟩ := hw <;> cases hw
  | accept v q ws d =>
    refine h.worker rfl rfl rfl rfl (fun u x hx => ?_) fun v' rest hw => ?_
    · exact iff_of_false (fun hr => hr.2 (hr.1 ▸ hx)) not_false
    · obtain hw | ⟨next, hw⟩ := hw
      · cases hw
        exact List.suffix_refl _
      · cases hw
  | release v x rest q ws d hother => exact h.release hadj hother
  | releaseLast v x rest q ws d hall => exact h.releaseLast hadj hall
  | send v x rest q ws d =>
    apply h.same
    · rw [tokens_worker, tokens_queue_append, tokens_worker]
      simp only [Phase.carries, Phase.holds, Option.elim, zero_add]
      abel
    · intro u y _
      rw [released_worker, released_worker]
      exact Iff.rfl
    · refine h.left_worker fun v' rest' hw => ?_
      obtain hw | ⟨next, hw⟩ := hw
      · cases hw
        exact h.left _ (Multiset.mem_cons_self _ _) v rest (.inr ⟨x, rfl⟩)
      · cases hw
    · intro hout
      obtain hout | hout := Multiset.mem_cons.mp hout
      · cases hout
      · exact absurd hout (h.not_out rfl)
  | leave v q ws d =>
    refine h.worker rfl rfl rfl rfl (fun u x _ => ?_) fun v rest hw => by
      obtain hw | ⟨next, hw⟩ := hw <;> cases hw
    exact ⟨fun hr => ⟨hr, List.not_mem_nil⟩, fun hr => hr.1⟩
  | complete v q ws d =>
    apply h.same
    · rw [tokens_worker, tokens_done_cons, tokens_worker]
      simp [Phase.carries, Phase.holds]
    · intro u x _
      rw [released_worker, released_worker]
      unfold Config.Released
      simp only [Phase.Released, false_or, List.mem_cons]
      rw [or_assoc, eq_comm]
    · exact h.left_worker fun v rest hw => by obtain hw | ⟨next, hw⟩ := hw <;> cases hw
    · intro hout
      obtain hout | hout := Multiset.mem_cons.mp hout
      · cases hout
      · exact absurd hout (h.not_out rfl)
  | drain ws d hheld =>
    apply h.same
    · rw [tokens_worker, tokens_worker]
      rfl
    · intro u x _
      rw [released_worker, released_worker]
      exact Iff.rfl
    · exact h.left_worker fun v rest hw => by obtain hw | ⟨next, hw⟩ := hw <;> cases hw
    · exact fun _ => drained_worker.mpr ⟨rfl, rfl, hheld⟩

/-! ## The start and the end -/

/-- Idle workers and a queue of different vertices that no edge leads to. -/
theorem Sound.start {ws : Multiset (Phase V)} (hidle : ∀ w ∈ ws, w = .idle) (hnodup : init.Nodup)
    (hinit : ∀ x ∈ init, ∀ u, x ∉ adj u) : Sound adj init ⟨init, ws, []⟩ := by
  have hcarries : ws.filterMap Phase.carries = 0 := by
    rw [Multiset.eq_zero_iff_forall_notMem]
    intro x hx
    obtain ⟨w, hw, hwx⟩ := (Multiset.mem_filterMap _ _).mp hx
    rw [hidle w hw] at hwx
    cases hwx
  have hholds : ws.filterMap Phase.holds = 0 := by
    rw [Multiset.eq_zero_iff_forall_notMem]
    intro x hx
    obtain ⟨w, hw, hwx⟩ := (Multiset.mem_filterMap _ _).mp hx
    rw [hidle w hw] at hwx
    cases hwx
  have htokens : Config.tokens ⟨init, ws, []⟩ = init := by
    unfold Config.tokens
    rw [hcarries, hholds, add_zero, add_zero, Multiset.coe_nil, add_zero]
  -- nobody works, so no edge is released
  have hreleased : ∀ u x, ¬ Config.Released ⟨init, ws, []⟩ u x := by
    rintro u x (hd | ⟨w, hw, hr⟩)
    · cases hd
    · rw [hidle w hw] at hr
      exact hr
  exact
    { nodup := by
        rw [htokens]
        exact hnodup
      left := fun w hw v rest h => by
        rw [hidle w hw] at h
        obtain h | ⟨next, h⟩ := h <;> cases h
      ready := fun x hx u hu => absurd hu (hinit x (by rwa [htokens] at hx) u)
      blocked := fun x hx => by
        rw [htokens] at hx
        refine ⟨hx, ?_⟩
        by_cases h : ∃ u, x ∈ adj u
        · obtain ⟨u, hu⟩ := h
          exact .inl ⟨u, hu, hreleased u x⟩
        · exact .inr fun u hu => h ⟨u, hu⟩
      origin := fun x hx => .inl (by rwa [htokens] at hx)
      acc := fun x hx => Acc.intro x fun u hu => absurd hu (hinit x (by rwa [htokens] at hx) u)
      drained := fun hout => nomatch hidle _ hout }

/-- A worker that neither releases edges nor carries a vertex. -/
def Phase.Resting : Phase V → Prop
  | idle | stopped _ | out => True
  | _ => False

/-- Nothing is queued, and nobody is about to release an edge. -/
structure Quiet (c : Config V) : Prop where
  queue : c.queue = []
  resting : ∀ w ∈ c.workers, w.Resting

theorem Quiet.mem_tokens (h : Quiet c) {x : V} :
    x ∈ c.tokens ↔ .stopped x ∈ c.workers ∨ x ∈ c.done := by
  unfold Config.tokens
  rw [h.queue]
  simp only [Multiset.coe_nil, zero_add, Multiset.mem_add, Multiset.mem_filterMap, Multiset.mem_coe]
  constructor
  · rintro ((⟨w, hw, hx⟩ | ⟨w, hw, hx⟩) | hx)
    · have := h.resting w hw
      cases w <;> first | exact this.elim | cases hx
    · have := h.resting w hw
      cases w <;> first | exact this.elim | cases hx
      exact .inl hw
    · exact .inr hx
  · rintro (hx | hx)
    · exact .inl (.inr ⟨_, hx, rfl⟩)
    · exact .inr hx

theorem released_of_resting (h : ∀ w ∈ c.workers, w.Resting) {u x : V} :
    c.Released u x ↔ u ∈ c.done := by
  unfold Config.Released
  rw [or_iff_left]
  rintro ⟨w, hw, hr⟩
  have := h w hw
  cases w <;> first | exact this | exact hr

/-- While nobody releases edges the ancestors of a token are done. -/
theorem Sound.done_of_ancestor (h : Sound adj init c)
    (hresting : ∀ w ∈ c.workers, w.Resting) {u x : V}
    (hx : x ∈ c.tokens) (hu : Relation.TransGen (fun u x => x ∈ adj u) u x) : u ∈ c.done := by
  induction hu using Relation.TransGen.head_induction_on with
  | single hedge => exact (released_of_resting hresting).mp (h.ready x hx _ hedge)
  | head hedge _ ih =>
    exact (released_of_resting hresting).mp (h.ready _ (mem_tokens_of_done ih) _ hedge)

/-- At the end every vertex that has no stopped ancestor, and whose sources were all in the queue,
was reached. -/
theorem Sound.reached (h : Sound adj init c) (hquiet : Quiet c) {x : V}
    (hacc : Acc (fun u x => x ∈ adj u) x)
    (hsources : ∀ u, Relation.ReflTransGen (fun u x => x ∈ adj u) u x → (∀ v, u ∉ adj v) → u ∈ init)
    (hstopped : ∀ u, Relation.TransGen (fun u x => x ∈ adj u) u x → .stopped u ∉ c.workers) :
    x ∈ c.tokens := by
  induction hacc with
  | intro x _ ih =>
    by_contra hx
    obtain ⟨hinit, ⟨u, hu, hnot⟩ | hnone⟩ := h.blocked x hx
    · have hmem := ih u hu (fun v hv => hsources v (hv.tail hu)) (fun v hv =>
        hstopped v (hv.tail hu))
      obtain hs | hd := hquiet.mem_tokens.mp hmem
      · exact hstopped u (.single hu) hs
      · exact hnot ((released_of_resting hquiet.resting).mpr hd)
    · exact hinit (hsources x .refl hnone)

end DagTraversal
