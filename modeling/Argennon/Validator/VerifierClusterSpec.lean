import Argennon.Validator.VerifierCluster
import Argennon.Lib.ForwardGraph

/- What the operations of `VerifierCluster` compute and what their checks amount to.
   A clique keeps its members ascending, so an edge to each of the two neighbours of
   a request stands for a path to every member. -/
namespace Argennon

open ForwardGraph

namespace Dag

/-- The edges of the dag as a relation. -/
def Edge (dag : Dag) (u v : Nat) : Prop := dag u v = true

/-- Adjacent in the order of the ids; never a request and itself. -/
def Adj (dag : Dag) (u v : Nat) : Prop := (u < v ∧ dag u v = true) ∨ (v < u ∧ dag v u = true)

theorem Adj.symm {dag : Dag} {u v : Nat} (h : dag.Adj u v) : dag.Adj v u := Or.symm h

theorem Adj.edge {dag : Dag} {u v : Nat} (h : dag.Adj u v) (hle : u ≤ v) : dag u v = true := by
  rcases h with h | h
  · exact h.2
  · omega

theorem Adj.linked {dag : Dag} {u v : Nat} (h : dag.Adj u v) : Linked dag.Edge u v := by
  rcases h with h | h
  · exact .inr (.inl (.single h.2))
  · exact .inr (.inr (.single h.2))

end Dag

namespace VerifierCluster

variable {dag : Dag} {u v : Nat} {c d : VerifierCluster}

theorem registerAdjacency_ok : registerAdjacency dag u v = .ok () ↔ dag u v = true := by
  unfold registerAdjacency
  split <;> simp_all

theorem addDependencyBetween_ok (hf : Forward dag.Edge) :
    addDependencyBetween dag u v = .ok () ↔ dag.Adj u v := by
  have hirr : dag v u = true → v < u := hf v u
  unfold addDependencyBetween Dag.Adj
  split
  · rename_i hlt
    simp [registerAdjacency_ok, hlt, Nat.not_lt.mpr hlt.le]
  · rename_i hge
    simp only [registerAdjacency_ok, hge, false_and, false_or]
    exact ⟨fun h => ⟨hirr h, h⟩, fun h => h.2⟩

/-! ## Members -/

/-- The members after `merge`. -/
def mergedMembers (c d : VerifierCluster) : List Nat :=
  if d.type = .writable then mergeBack c.members d.members else c.members ++ d.members

/-- The members after `insert`. -/
def insertedMembers (c : VerifierCluster) (req : Nat) (t : Access) : List Nat :=
  if t = .writable then mergeBack c.members [req] else c.members ++ [req]

theorem merge_eq (c d : VerifierCluster) :
    c.merge d = .ok { c with members := mergedMembers c d } := by
  unfold merge mergedMembers
  split
  · rw [mergeInsert_eq]
    rfl
  · rfl

theorem insert_eq (c : VerifierCluster) (req : Nat) (t : Access) :
    c.insert req t = .ok { type := t, members := insertedMembers c req t } := by
  unfold insert insertedMembers
  split
  · rw [mergeInsert_eq]
    rfl
  · rfl

theorem mergedMembers_perm (c d : VerifierCluster) :
    (mergedMembers c d).Perm (c.members ++ d.members) := by
  unfold mergedMembers
  split
  · exact mergeBack_perm _ _
  · exact .rfl

theorem insertedMembers_perm (c : VerifierCluster) (req : Nat) (t : Access) :
    (insertedMembers c req t).Perm (req :: c.members) := by
  have hswap : (c.members ++ [req]).Perm (req :: c.members) := List.perm_append_singleton _ _
  unfold insertedMembers
  split
  · exact (mergeBack_perm _ _).trans hswap
  · exact hswap

theorem mergedMembers_sorted (hd : d.type = .writable) (h : c.members.Pairwise (· ≤ ·))
    (h' : d.members.Pairwise (· ≤ ·)) : (mergedMembers c d).Pairwise (· ≤ ·) := by
  rw [mergedMembers, if_pos hd]
  exact mergeBack_sorted h h'

theorem insertedMembers_sorted (req : Nat) (h : c.members.Pairwise (· ≤ ·)) :
    (insertedMembers c req .writable).Pairwise (· ≤ ·) := by
  rw [insertedMembers, if_pos rfl]
  exact mergeBack_sorted h (List.pairwise_singleton _ _)

/-! ## Checks -/

theorem registerChain_ok : ∀ {l : List Nat}, registerChain dag l = .ok () ↔ l.IsChain dag.Edge
  | [] => by simp [registerChain]
  | [_] => by simp [registerChain]
  | u :: v :: rest => by
    rw [registerChain, bind_ok, List.isChain_cons_cons, ← registerChain_ok, Dag.Edge,
      ← registerAdjacency_ok]
    exact ⟨fun ⟨_, h⟩ => h, fun h => ⟨(), h⟩⟩

/-- A checked clique has paths between all its members. -/
theorem finalize_linked (h : c.finalize dag = .ok ()) (hw : c.type = .writable) {m m' : Nat}
    (hm : m ∈ c.members) (hm' : m' ∈ c.members) : Linked dag.Edge m m' := by
  rw [finalize, if_pos hw, registerChain_ok] at h
  exact linked_of_pairwise (pairwise_of_chain h) hm hm'

/-- The check against the two neighbours of `u` links `u` with the whole cluster. -/
theorem addDependency_linked (hf : Forward dag.Edge) (h : c.addDependency dag u = .ok ())
    (hc : c.type = .writable → c.members.Pairwise (· ≤ ·) ∧
      ∀ m ∈ c.members, ∀ m' ∈ c.members, Linked dag.Edge m m') :
    ∀ m ∈ c.members, Linked dag.Edge m u := by
  intro m hm
  unfold addDependency at h
  split at h
  swap
  · exact ((addDependencyBetween_ok hf).mp (forEach_ok.mp h m hm)).linked
  rename_i hw
  obtain ⟨hs, hl⟩ := hc hw
  have habove : ∀ last,
      c.members[(c.members.takeWhile (· ≤ u)).length - 1]? = some last → m ≤ last →
        registerAdjacency dag last u = .ok () → Linked dag.Edge m u := by
    intro last hget hle hreg
    exact linked_of_edge_above hf (hl m hm last (List.mem_of_getElem? hget)) hle
      (registerAdjacency_ok.mp hreg)
  have hbelow : ∀ first, c.members[(c.members.takeWhile (· ≤ u)).length]? = some first → first ≤ m →
      registerAdjacency dag u first = .ok () → Linked dag.Edge m u := by
    intro first hget hle hreg
    exact linked_of_edge_below hf (hl first (List.mem_of_getElem? hget) m hm) hle
      (registerAdjacency_ok.mp hreg)
  simp only at h
  rcases le_or_ge_of_sorted hs (u := u) hm with ⟨last, hget, hle, hpos⟩ | ⟨first, hget, hle⟩
  · refine habove last hget hle ?_
    split at h
    · simpa [vecGet, hget, bind, Except.bind] using h
    split at h
    · omega
    · obtain ⟨_, h1, h2⟩ := bind_ok.mp h
      rw [vecGet_ok, hget, Option.some.injEq] at h1
      subst h1
      obtain ⟨_, h3, -⟩ := bind_ok.mp h2
      exact h3
  · have hlt : (c.members.takeWhile (· ≤ u)).length < c.members.length :=
      (List.getElem?_eq_some_iff.mp hget).1
    refine hbelow first hget hle ?_
    rw [if_neg (by omega)] at h
    split at h
    · simpa [vecGet, hget, bind, Except.bind] using h
    · obtain ⟨_, _, h2⟩ := bind_ok.mp h
      obtain ⟨_, _, h3⟩ := bind_ok.mp h2
      simpa [vecGet, hget, bind, Except.bind] using h3

/-- A clique whose members are pairwise adjacent passes its check. -/
theorem finalize_of_adj (hs : c.type = .writable → c.members.Pairwise (· ≤ ·))
    (h : c.type = .writable → c.members.Pairwise dag.Adj) : c.finalize dag = .ok () := by
  unfold finalize
  split
  · rename_i hw
    rw [registerChain_ok]
    exact List.Pairwise.isChain ((hs hw).imp₂ (fun _ _ hle hadj => hadj.edge hle) (h hw))
  · rfl

/-- A request adjacent to every member passes the check. -/
theorem addDependency_of_adj (hf : Forward dag.Edge) (hne : c.members ≠ [])
    (h : ∀ m ∈ c.members, dag.Adj m u) :
    c.addDependency dag u = .ok () := by
  unfold addDependency
  split
  swap
  · exact forEach_ok.mpr fun m hm => (addDependencyBetween_ok hf).mpr (h m hm)
  have hprev : ∀ k, k + 1 = (c.members.takeWhile (· ≤ u)).length →
      ∃ last, vecGet c.members k = .ok last ∧ registerAdjacency dag last u = .ok () := by
    intro k hk
    have hlt : k < c.members.length := by
      have := (List.takeWhile_prefix (p := (· ≤ u)) (l := c.members)).length_le
      omega
    have hle : c.members[k] ≤ u := by
      have hmem := List.getElem_mem (l := c.members.takeWhile (· ≤ u)) (n := k) (by omega)
      rw [List.IsPrefix.getElem (List.takeWhile_prefix _)] at hmem
      simpa using List.mem_takeWhile_imp hmem
    exact ⟨_, vecGet_lt hlt, registerAdjacency_ok.mpr ((h _ (List.getElem_mem hlt)).edge hle)⟩
  have hnext : (c.members.takeWhile (· ≤ u)).length < c.members.length →
      ∃ first, vecGet c.members (c.members.takeWhile (· ≤ u)).length = .ok first ∧
        registerAdjacency dag u first = .ok () := by
    intro hlt
    have hgt : ¬ c.members[(c.members.takeWhile (· ≤ u)).length] ≤ u := by
      simpa using not_of_getElem?_takeWhile (List.getElem?_eq_getElem hlt)
    exact ⟨_, vecGet_lt hlt,
      registerAdjacency_ok.mpr ((h _ (List.getElem_mem hlt)).symm.edge (by omega))⟩
  have hle := (List.takeWhile_prefix (p := (· ≤ u)) (l := c.members)).length_le
  simp only
  split
  · rename_i hall
    have hpos : 0 < c.members.length := List.length_pos_iff.mpr hne
    obtain ⟨last, hget, hreg⟩ := hprev ((c.members.takeWhile (· ≤ u)).length - 1) (by omega)
    rw [hget]
    exact hreg
  rename_i hnall
  obtain ⟨first, hget, hreg⟩ := hnext (by omega)
  split
  · rw [hget]
    exact hreg
  · obtain ⟨last, hget', hreg'⟩ := hprev ((c.members.takeWhile (· ≤ u)).length - 1) (by omega)
    rw [hget, hget']
    simp only [bind, Except.bind, hreg', hreg]

end VerifierCluster
end Argennon
