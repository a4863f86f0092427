import Mathlib.Order.Basic
import Mathlib.Logic.Relation
import Mathlib.Data.List.Chain
import Mathlib.Data.List.TakeWhile
import Mathlib.Order.Lattice

/- Graphs whose edges go from smaller to larger vertices, and what a chain of edges
   says about an ascending list of vertices: all its members are joined by paths,
   and so is a further vertex that has edges to its two neighbours in the list. -/
namespace ForwardGraph

variable {α : Type*} [LinearOrder α] {r : α → α → Prop}

/-- Every edge goes from a smaller to a larger vertex. -/
def Forward (r : α → α → Prop) : Prop := ∀ u v, r u v → u < v

/-- A directed path of one edge or more. -/
abbrev Path (r : α → α → Prop) : α → α → Prop := Relation.TransGen r

/-- Equal, or joined by a path in one direction. -/
def Linked (r : α → α → Prop) (u v : α) : Prop := u = v ∨ Path r u v ∨ Path r v u

omit [LinearOrder α] in
theorem Linked.symm {u v : α} (h : Linked r u v) : Linked r v u := by
  rcases h with rfl | h | h
  · exact .inl rfl
  · exact .inr (.inr h)
  · exact .inr (.inl h)

omit [LinearOrder α] in
instance : Std.Symm (Linked r) := ⟨fun _ _ h => h.symm⟩

theorem path_lt (hf : Forward r) {u v : α} (h : Path r u v) : u < v := by
  induction h with
  | single h => exact hf _ _ h
  | tail _ h ih => exact lt_trans ih (hf _ _ h)

theorem Linked.path (hf : Forward r) {u v : α} (h : Linked r u v) (hlt : u < v) : Path r u v := by
  rcases h with rfl | h | h
  · exact absurd hlt (lt_irrefl _)
  · exact h
  · exact absurd (path_lt hf h) (not_lt.mpr hlt.le)

theorem Linked.eq_or_path (hf : Forward r) {u v : α} (h : Linked r u v) (hle : u ≤ v) :
    u = v ∨ Path r u v := by
  rcases hle.eq_or_lt with rfl | hlt
  · exact .inl rfl
  · exact .inr (h.path hf hlt)

omit [LinearOrder α] in
/-- A chain of edges joins every pair of its vertices. -/
theorem pairwise_of_chain {l : List α} (h : l.IsChain r) : l.Pairwise (Path r) :=
  List.isChain_iff_pairwise.mp (h.imp fun _ _ => .single)

omit [LinearOrder α] in
theorem linked_of_pairwise {l : List α} (h : l.Pairwise (Path r)) {u v : α} (hu : u ∈ l)
    (hv : v ∈ l) :
    Linked r u v := by
  have hl : l.Pairwise (Linked r) := h.imp fun h => .inr (.inl h)
  exact hl.forall_of_forall (fun _ _ => .inl rfl) hu hv

/-- An edge from a last vertex links everything that is linked with it and below. -/
theorem linked_of_edge_above (hf : Forward r) {m last u : α} (hm : Linked r m last) (hle : m ≤ last)
    (h : r last u) : Linked r m u := by
  rcases hm.eq_or_path hf hle with rfl | hp
  · exact .inr (.inl (.single h))
  · exact .inr (.inl (hp.tail h))

theorem linked_of_edge_below (hf : Forward r) {m first u : α} (hm : Linked r first m)
    (hle : first ≤ m)
    (h : r u first) : Linked r m u := by
  rcases hm.eq_or_path hf hle with rfl | hp
  · exact .inr (.inr (.single h))
  · exact .inr (.inr (.head h hp))

omit [LinearOrder α] in
/-- The element after the longest prefix does not satisfy the test. -/
theorem not_of_getElem?_takeWhile {p : α → Bool} : ∀ {l : List α} {a : α},
    l[(l.takeWhile p).length]? = some a → p a = false
  | [], _, h => by simp at h
  | b :: l, a, h => by
    cases hb : p b with
    | false =>
      rw [List.takeWhile_cons_of_neg (by simp [hb])] at h
      obtain rfl : b = a := by simpa using h
      exact hb
    | true =>
      rw [List.takeWhile_cons_of_pos hb] at h
      exact not_of_getElem?_takeWhile (l := l) (by simpa using h)

/-- The members of an ascending list split at `u` by `takeWhile`. -/
theorem le_or_ge_of_sorted {l : List α} (hs : l.Pairwise (· ≤ ·)) {u m : α} (hm : m ∈ l) :
    (∃ last, l[(l.takeWhile (· ≤ u)).length - 1]? = some last ∧ m ≤ last ∧
      0 < (l.takeWhile (· ≤ u)).length) ∨
    (∃ first, l[(l.takeWhile (· ≤ u)).length]? = some first ∧ first ≤ m) := by
  generalize hk : (l.takeWhile (· ≤ u)).length = k
  obtain ⟨j, hj, rfl⟩ := List.getElem_of_mem hm
  have hkl : k ≤ l.length := hk ▸ (List.takeWhile_prefix _).length_le
  rcases Nat.lt_or_ge j k with h | h
  · have hk1 : k - 1 < l.length := by omega
    refine .inl ⟨l[k - 1], List.getElem?_eq_getElem _, ?_, by omega⟩
    rcases Nat.lt_or_ge j (k - 1) with h' | h'
    · exact List.pairwise_iff_getElem.mp hs _ _ _ _ h'
    · have : j = k - 1 := by omega
      subst this
      exact le_rfl
  · have hk1 : k < l.length := by omega
    refine .inr ⟨l[k], List.getElem?_eq_getElem _, ?_⟩
    rcases Nat.lt_or_ge k j with h' | h'
    · exact List.pairwise_iff_getElem.mp hs _ _ _ _ h'
    · have : k = j := by omega
      subst this
      exact le_rfl

end ForwardGraph
