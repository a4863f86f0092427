import Argennon.Util.OrderedStaticMap
import Mathlib.Data.Prod.Lex

/- The merge of maps (`util/OrderedStaticMap.hpp`: `operator|`, `mergeValues`,
   `mergeIntervalParallel`, `mergeAllParallel`).

   One loop serves every level: at equal keys `mergeValues` gives the value that is
   appended and tells which of the two sides advance. A nested map is merged and both
   advance; of two leaves the smaller one is taken and its side advances, so every
   leaf stays in the result.

   What the fold leaves is described by a relation between the list of the merged
   values and the result, `Merged` for leaves and its lift `MergedMap` for maps. Each
   is closed under the merge of two results (`append`), so it holds of any tree of
   merges, and determines the result up to the order of the list (`unique`). -/
namespace Argennon

/-- Which sides of the merge advance. -/
inductive Advance where
  | left | right | both
  deriving DecidableEq, Repr

/-- `mergeValues`, chosen by the type of the values. -/
class MergeValues (V : Type) where
  mergeValues : V → V → V × Advance

/-- `mergeValues` on values that are compared by `lt`. -/
def mergeLeaves {T : Type} (lt : T → T → Bool) (left right : T) : T × Advance :=
  if lt left right then (left, .left) else (right, .right)

namespace OrderedStaticMap
variable {K V : Type} [LinearOrder K]

/-- The loop of `operator|` over what is left of the two maps. -/
def mergeLoop (mergeValues : V → V → V × Advance) : List (K × V) → List (K × V) → List (K × V)
  | left, [] => left
  | [], right => right
  | (k, v) :: left, (k', v') :: right =>
    if k = k' then
      match mergeValues v v' with
      | (x, .both) => (k, x) :: mergeLoop mergeValues left right
      | (x, .left) => (k, x) :: mergeLoop mergeValues left ((k', v') :: right)
      | (x, .right) => (k, x) :: mergeLoop mergeValues ((k, v) :: left) right
    else if k < k' then (k, v) :: mergeLoop mergeValues left ((k', v') :: right)
    else (k', v') :: mergeLoop mergeValues ((k, v) :: left) right
  termination_by left right => left.length + right.length

/-- The map with the given entries. -/
def ofEntries (l : List (K × V)) : OrderedStaticMap K V := ⟨l.map Prod.fst, l.map Prod.snd, by simp⟩

omit [LinearOrder K] in
@[simp] theorem entries_ofEntries (l : List (K × V)) : (ofEntries l).entries = l := by
  rw [entries, ofEntries, List.zip_map']
  simp

omit [LinearOrder K] in
/-- A map is determined by its entries. -/
theorem ext_entries {m m' : OrderedStaticMap K V} (h : m.entries = m'.entries) : m = m' := by
  have hk : m.keys = m'.keys := by rw [← m.map_fst_entries, h, m'.map_fst_entries]
  have hv : m.values = m'.values := by rw [← m.map_snd_entries, h, m'.map_snd_entries]
  cases m
  cases m'
  simp_all

/-- `operator|` -/
def merge [MergeValues V] (left right : OrderedStaticMap K V) : OrderedStaticMap K V :=
  ofEntries (mergeLoop MergeValues.mergeValues left.entries right.entries)

instance [MergeValues V] : MergeValues (OrderedStaticMap K V) where
  mergeValues left right := (merge left right, .both)

/-- `mergeIntervalParallel`: intervals of more than `k` maps merge their second half in
another thread. -/
def mergeIntervalParallel [MergeValues V] (maps : List (OrderedStaticMap K V))
    (first last k : Nat) :
    Except Exn (OrderedStaticMap K V) :=
  if last ≤ first then .ok (ofEntries [])
  else if last = first + 1 then vecGet maps first
  else if last ≤ first + k then do
    let firstHalf ← mergeIntervalParallel maps first ((first + last) / 2) k
    let secondHalf ← mergeIntervalParallel maps ((first + last) / 2) last k
    .ok (merge firstHalf secondHalf)
  else do
    let secondHalf ← mergeIntervalParallel maps ((first + last) / 2) last k
    let firstHalf ← mergeIntervalParallel maps first ((first + last) / 2) k
    .ok (merge firstHalf secondHalf)
  termination_by last - first

/-- `mergeAllParallel` -/
def mergeAllParallel [MergeValues V] (maps : List (OrderedStaticMap K V)) (workersCount : Nat) :
    Except Exn (OrderedStaticMap K V) :=
  mergeIntervalParallel maps 0 maps.length (maps.length / workersCount)

/-! ## Leaves -/

section Leaves
variable {T R : Type} [LinearOrder R] {lt : T → T → Bool} {rank : T → R}

/-- The rank of an entry: its key, then the rank of its leaf. -/
def entryRank (rank : T → R) (e : K × T) : K ×ₗ R := toLex (e.1, rank e.2)

/-- On leaves the loop is the merge of two lists, with the right element first at a tie. -/
theorem mergeLoop_leaves (hlt : ∀ a b, lt a b = true ↔ rank a < rank b) :
    ∀ left right : List (K × T),
    mergeLoop (mergeLeaves lt) left right =
      List.merge right left fun b a => decide (entryRank rank b ≤ entryRank rank a)
  | left, [] => by rw [mergeLoop, List.nil_merge]
  | [], e :: right => by rw [mergeLoop, List.merge_right]; simp
  | (k, v) :: left, (k', v') :: right => by
    have ihl := mergeLoop_leaves hlt left ((k', v') :: right)
    have ihr := mergeLoop_leaves hlt ((k, v) :: left) right
    have hle : entryRank rank (k', v') ≤ entryRank rank (k, v) ↔ k' < k ∨ k' = k ∧
        rank v' ≤ rank v :=
      Prod.Lex.toLex_le_toLex
    rw [mergeLoop, List.cons_merge_cons]
    simp only [hle, decide_eq_true_eq]
    by_cases hk : k = k'
    · subst hk
      rw [if_pos rfl]
      by_cases hv : rank v < rank v'
      · have hmv : mergeLeaves lt v v' = (v, .left) := if_pos ((hlt v v').mpr hv)
        simp only [hmv]
        rw [if_neg (by simp [hv]), ihl]
      · have hmv : mergeLeaves lt v v' = (v', .right) := if_neg (mt (hlt v v').mp hv)
        simp only [hmv]
        rw [if_pos (.inr ⟨trivial, not_lt.mp hv⟩), ihr]
    · rw [if_neg hk]
      by_cases hkk : k < k'
      · rw [if_pos hkk, if_neg (by simp [hkk.le, Ne.symm hk]), ihl]
      · rw [if_neg hkk, if_pos (.inl (lt_of_le_of_ne (not_lt.mp hkk) (Ne.symm hk))), ihr]
  termination_by left right => left.length + right.length

/-- The leaves of `m` are those of the listed maps, sorted by key and rank. -/
structure Merged (rank : T → R) (maps : List (OrderedStaticMap K T))
    (m : OrderedStaticMap K T) : Prop where
  sorted : m.entries.Pairwise fun a b => entryRank rank a ≤ entryRank rank b
  perm : m.entries.Perm (maps.flatMap entries)

theorem Merged.nil : Merged rank [] (ofEntries [] : OrderedStaticMap K T) := ⟨by simp, by simp⟩

theorem Merged.single {m : OrderedStaticMap K T}
    (h : m.entries.Pairwise fun a b => entryRank rank a ≤ entryRank rank b) :
    Merged rank [m] m := ⟨h, by simp⟩

/-- The merge of two results. -/
theorem Merged.append (hlt : ∀ a b, lt a b = true ↔ rank a < rank b)
    {maps₁ maps₂ : List (OrderedStaticMap K T)}
    {m₁ m₂ : OrderedStaticMap K T} (h₁ : Merged rank maps₁ m₁) (h₂ : Merged rank maps₂ m₂) :
    Merged rank (maps₁ ++ maps₂)
      (ofEntries (mergeLoop (mergeLeaves lt) m₁.entries m₂.entries)) := by
  constructor
  · rw [entries_ofEntries, mergeLoop_leaves hlt]
    let le : K × T → K × T → Bool := fun a b => decide (entryRank rank a ≤ entryRank rank b)
    have htrans : ∀ a b c, le a b → le b c → le a c := fun a b c hab hbc =>
      decide_eq_true (le_trans (of_decide_eq_true hab) (of_decide_eq_true hbc))
    have htotal : ∀ a b, le a b || le b a := fun a b => by
      simpa [le] using le_total (entryRank rank a) (entryRank rank b)
    have hsorted := List.pairwise_merge htrans htotal m₂.entries m₁.entries
      (by simpa [le] using h₂.sorted) (by simpa [le] using h₁.sorted)
    simpa [le] using hsorted
  · rw [entries_ofEntries, mergeLoop_leaves hlt, List.flatMap_append]
    have hmerge : (m₂.entries.merge m₁.entries fun b a =>
      decide (entryRank rank b ≤ entryRank rank a)).Perm
        (m₂.entries ++ m₁.entries) := List.merge_perm_append _
    exact (hmerge.trans List.perm_append_comm).trans (h₁.perm.append h₂.perm)

/-- No two different leaves stand at one key with one rank. -/
def LeavesDistinct (rank : T → R) (maps : List (OrderedStaticMap K T)) : Prop :=
  ∀ a ∈ maps.flatMap entries, ∀ b ∈ maps.flatMap entries, entryRank rank a =
    entryRank rank b → a = b

/-- Distinct leaves have one order, so the result does not depend on how they were merged. -/
theorem Merged.unique {maps maps' : List (OrderedStaticMap K T)} {m m' : OrderedStaticMap K T}
    (hdistinct : LeavesDistinct rank maps) (hperm : maps.Perm maps') (h : Merged rank maps m)
    (h' : Merged rank maps' m') : m = m' := by
  have hflat : (maps.flatMap entries).Perm (maps'.flatMap entries) := hperm.flatMap_right _
  apply ext_entries
  refine List.Perm.eq_of_pairwise (fun a b ha hb hab hba => ?_) h.sorted h'.sorted
    (h.perm.trans (hflat.trans h'.perm.symm))
  exact hdistinct a (h.perm.mem_iff.mp ha) b (hflat.mem_iff.mpr (h'.perm.mem_iff.mp hb))
    (le_antisymm hab hba)

end Leaves

/-! ## Nested maps -/

section Nested
variable {M : List V → V → Prop} {combine : V → V → V} {mergeValues : V → V → V × Advance}

/-- The values the maps have at a key, map by map. -/
def valuesAt (maps : List (OrderedStaticMap K V)) (k : K) : List V :=
  maps.flatMap fun m => (m.entries.filter fun e => e.1 = k).map Prod.snd

theorem valuesAt_append (maps₁ maps₂ : List (OrderedStaticMap K V)) (k : K) :
    valuesAt (maps₁ ++ maps₂) k = valuesAt maps₁ k ++ valuesAt maps₂ k := List.flatMap_append

theorem valuesAt_nil {maps : List (OrderedStaticMap K V)} {k : K} (h : ∀ m ∈ maps, k ∉ m.keys) :
    valuesAt maps k = [] := by
  unfold valuesAt
  rw [List.flatMap_eq_nil_iff]
  intro m hm
  rw [List.map_eq_nil_iff, List.filter_eq_nil_iff]
  intro e he hk
  refine h m hm ?_
  rw [← m.map_fst_entries]
  exact List.mem_map.mpr ⟨e, he, of_decide_eq_true hk⟩

/-- In a map of sorted keys a key has one value. -/
theorem valuesAt_single {m : OrderedStaticMap K V} (hs : m.keys.Pairwise (· < ·)) {e : K × V}
    (he : e ∈ m.entries) :
    valuesAt [m] e.1 = [e.2] := by
  have hkeys : m.entries.Pairwise fun a b => a.1 < b.1 := by
    rwa [← m.map_fst_entries, List.pairwise_map] at hs
  have hfilter : m.entries.filter (fun a => a.1 = e.1) = [e] := by
    obtain ⟨l₁, l₂, hl⟩ := List.append_of_mem he
    rw [hl] at hkeys ⊢
    obtain ⟨-, h₂, h₁⟩ := List.pairwise_append.mp hkeys
    have hbefore : l₁.filter (fun a => a.1 = e.1) = [] := by
      simpa [List.filter_eq_nil_iff] using fun k v hkv => (h₁ (k, v) hkv e List.mem_cons_self).ne
    have hafter : l₂.filter (fun a => a.1 = e.1) = [] := by
      simpa [List.filter_eq_nil_iff] using fun k v hkv =>
        ((List.pairwise_cons.mp h₂).1 (k, v) hkv).ne'
    simp [hbefore, hafter]
  simp [valuesAt, hfilter]

/-- The keys of `m` are those of the listed maps, and its value at each key is `M` of the
values they have there. -/
structure MergedMap (M : List V → V → Prop) (maps : List (OrderedStaticMap K V))
    (m : OrderedStaticMap K V) : Prop where
  sorted : m.keys.Pairwise (· < ·)
  keys : ∀ k, k ∈ m.keys ↔ ∃ m' ∈ maps, k ∈ m'.keys
  values : ∀ e ∈ m.entries, M (valuesAt maps e.1) e.2

theorem MergedMap.nil : MergedMap M [] (ofEntries [] : OrderedStaticMap K V) :=
  ⟨by simp [ofEntries], by simp [ofEntries], by simp⟩

theorem MergedMap.single {m : OrderedStaticMap K V} (hs : m.keys.Pairwise (· < ·))
    (hM : ∀ e ∈ m.entries, M [e.2] e.2) :
    MergedMap M [m] m := by
  refine ⟨hs, by simp, fun e he => ?_⟩
  rw [valuesAt_single hs he]
  exact hM e he

/-- When both sides advance at equal keys, no key comes twice. -/
theorem mem_mergeLoop (hboth : ∀ v v', mergeValues v v' = (combine v v', .both)) :
    ∀ {left right : List (K × V)},
    left.Pairwise (fun a b => a.1 < b.1) → right.Pairwise (fun a b => a.1 < b.1) →
      ∀ e ∈ mergeLoop mergeValues left right,
      (∃ v v', (e.1, v) ∈ left ∧ (e.1, v') ∈ right ∧ e.2 = combine v v') ∨
        (e ∈ left ∧ ∀ b ∈ right, b.1 ≠ e.1) ∨ (e ∈ right ∧ ∀ a ∈ left, a.1 ≠ e.1)
  | left, [], _, _, e, he => by
    rw [mergeLoop] at he
    exact .inr (.inl ⟨he, by simp⟩)
  | [], b :: right, _, _, e, he => by
    rw [mergeLoop] at he
    · exact .inr (.inr ⟨he, by simp⟩)
    · simp
  | (k, v) :: left, (k', v') :: right, hl, hr, e, he => by
    obtain ⟨hl₁, hl₂⟩ := List.pairwise_cons.mp hl
    obtain ⟨hr₁, hr₂⟩ := List.pairwise_cons.mp hr
    rw [mergeLoop] at he
    split at he
    · -- equal keys: the rest of either side has greater keys
      rename_i hk
      subst hk
      simp only [hboth, List.mem_cons] at he
      rcases he with rfl | he
      · exact .inl ⟨v, v', List.mem_cons_self, List.mem_cons_self, rfl⟩
      rcases mem_mergeLoop hboth hl₂ hr₂ e he with ⟨w, w', h1, h2, h3⟩ | ⟨h1, h2⟩ | ⟨h1, h2⟩
      · exact .inl ⟨w, w', List.mem_cons_of_mem _ h1, List.mem_cons_of_mem _ h2, h3⟩
      · exact .inr (.inl ⟨List.mem_cons_of_mem _ h1, List.forall_mem_cons.mpr ⟨(hl₁ e h1).ne, h2⟩⟩)
      · exact .inr (.inr ⟨List.mem_cons_of_mem _ h1, List.forall_mem_cons.mpr ⟨(hr₁ e h1).ne, h2⟩⟩)
    rename_i hk
    split at he
    · -- the left key goes first, and is below every key of the right
      rename_i hlt
      rcases List.mem_cons.mp he with rfl | he
      · refine .inr (.inl ⟨List.mem_cons_self,
          List.forall_mem_cons.mpr ⟨hlt.ne', fun b hb => (hlt.trans (hr₁ b hb)).ne'⟩⟩)
      rcases mem_mergeLoop hboth hl₂ hr e he with ⟨w, w', h1, h2, h3⟩ | ⟨h1, h2⟩ | ⟨h1, h2⟩
      · exact .inl ⟨w, w', List.mem_cons_of_mem _ h1, h2, h3⟩
      · exact .inr (.inl ⟨List.mem_cons_of_mem _ h1, h2⟩)
      · refine .inr (.inr ⟨h1, List.forall_mem_cons.mpr ⟨?_, h2⟩⟩)
        rcases List.mem_cons.mp h1 with rfl | h1
        · exact hlt.ne
        · exact (hlt.trans (hr₁ e h1)).ne
    · -- the right key goes first
      rename_i hnlt
      have hlt : k' < k := lt_of_le_of_ne (not_lt.mp hnlt) (Ne.symm hk)
      rcases List.mem_cons.mp he with rfl | he
      · refine .inr (.inr ⟨List.mem_cons_self,
          List.forall_mem_cons.mpr ⟨hlt.ne', fun a ha => (hlt.trans (hl₁ a ha)).ne'⟩⟩)
      rcases mem_mergeLoop hboth hl hr₂ e he with ⟨w, w', h1, h2, h3⟩ | ⟨h1, h2⟩ | ⟨h1, h2⟩
      · exact .inl ⟨w, w', h1, List.mem_cons_of_mem _ h2, h3⟩
      · refine .inr (.inl ⟨h1, List.forall_mem_cons.mpr ⟨?_, h2⟩⟩)
        rcases List.mem_cons.mp h1 with rfl | h1
        · exact hlt.ne
        · exact (hlt.trans (hl₁ e h1)).ne
      · exact .inr (.inr ⟨List.mem_cons_of_mem _ h1, h2⟩)
  termination_by left right => left.length + right.length

/-- The loop drops no key. -/
theorem keys_mergeLoop (hboth : ∀ v v', mergeValues v v' = (combine v v', .both)) (k : K) :
    ∀ left right : List (K × V), k ∈ (mergeLoop mergeValues left right).map Prod.fst ↔
      k ∈ left.map Prod.fst ∨ k ∈ right.map Prod.fst
  | left, [] => by
    rw [mergeLoop]
    simp
  | [], b :: right => by
    rw [mergeLoop]
    · simp
    · simp
  | (a, v) :: left, (b, v') :: right => by
    rw [mergeLoop]
    split
    · rename_i hk
      simp only [hboth, List.map_cons, List.mem_cons, keys_mergeLoop hboth k left right, hk]
      tauto
    split
    · simp only [List.map_cons, List.mem_cons, keys_mergeLoop hboth k left ((b, v') :: right)]
      tauto
    · simp only [List.map_cons, List.mem_cons, keys_mergeLoop hboth k ((a, v) :: left) right]
      tauto
  termination_by left right => left.length + right.length

theorem mergeLoop_sorted (hboth : ∀ v v', mergeValues v v' = (combine v v', .both)) :
    ∀ {left right : List (K × V)},
    left.Pairwise (fun a b => a.1 < b.1) → right.Pairwise (fun a b => a.1 < b.1) →
    (mergeLoop mergeValues left right).Pairwise fun a b => a.1 < b.1
  | left, [], hl, _ => by rwa [mergeLoop]
  | [], b :: right, _, hr => by
    rw [mergeLoop]
    · exact hr
    · simp
  | (k, v) :: left, (k', v') :: right, hl, hr => by
    obtain ⟨hl₁, hl₂⟩ := List.pairwise_cons.mp hl
    obtain ⟨hr₁, hr₂⟩ := List.pairwise_cons.mp hr
    -- every entry that is still to come has a key of one of the two sides
    have hrest : ∀ {left right : List (K × V)} {k : K}, (∀ a ∈ left, k < a.1) →
        (∀ b ∈ right, k < b.1) →
          ∀ e ∈ mergeLoop mergeValues left right, k < e.1 := by
      intro left right k hleft hright e he
      rcases (keys_mergeLoop hboth e.1 left right).mp (List.mem_map_of_mem he) with h | h
      · obtain ⟨a, ha, heq⟩ := List.mem_map.mp h
        exact heq ▸ hleft a ha
      · obtain ⟨b, hb, heq⟩ := List.mem_map.mp h
        exact heq ▸ hright b hb
    rw [mergeLoop]
    split
    · rename_i hk
      subst hk
      simp only [hboth]
      exact List.pairwise_cons.mpr ⟨hrest hl₁ hr₁, mergeLoop_sorted hboth hl₂ hr₂⟩
    rename_i hk
    split
    · rename_i hlt
      refine List.pairwise_cons.mpr
        ⟨hrest hl₁ (List.forall_mem_cons.mpr ⟨hlt, fun b hb => hlt.trans (hr₁ b hb)⟩),
        mergeLoop_sorted hboth hl₂ hr⟩
    · rename_i hnlt
      have hlt : k' < k := lt_of_le_of_ne (not_lt.mp hnlt) (Ne.symm hk)
      refine List.pairwise_cons.mpr
        ⟨hrest (List.forall_mem_cons.mpr ⟨hlt, fun a ha => hlt.trans (hl₁ a ha)⟩) hr₁,
        mergeLoop_sorted hboth hl hr₂⟩
  termination_by left right => left.length + right.length

/-- The merge of two results. -/
theorem MergedMap.append (hboth : ∀ v v', mergeValues v v' = (combine v v', .both))
    (hM : ∀ {vs₁ vs₂ v₁ v₂}, M vs₁ v₁ → M vs₂ v₂ → M (vs₁ ++ vs₂) (combine v₁ v₂))
    {maps₁ maps₂ : List (OrderedStaticMap K V)} {m₁ m₂ : OrderedStaticMap K V}
    (h₁ : MergedMap M maps₁ m₁)
    (h₂ : MergedMap M maps₂ m₂) :
    MergedMap M (maps₁ ++ maps₂) (ofEntries (mergeLoop mergeValues m₁.entries m₂.entries)) := by
  have hs₁ : m₁.entries.Pairwise fun a b => a.1 < b.1 :=
    List.pairwise_map.mp (m₁.map_fst_entries.symm ▸ h₁.sorted)
  have hs₂ : m₂.entries.Pairwise fun a b => a.1 < b.1 :=
    List.pairwise_map.mp (m₂.map_fst_entries.symm ▸ h₂.sorted)
  refine ⟨?_, fun k => ?_, fun e he => ?_⟩
  · exact List.pairwise_map.mpr (mergeLoop_sorted hboth hs₁ hs₂)
  · have hkeys := keys_mergeLoop hboth k m₁.entries m₂.entries
    rw [m₁.map_fst_entries, m₂.map_fst_entries, h₁.keys, h₂.keys] at hkeys
    simp only [List.mem_append, or_and_right, exists_or]
    exact hkeys
  rw [entries_ofEntries] at he
  rw [valuesAt_append]
  -- a side without the key adds no value
  have hnone : ∀ {m : OrderedStaticMap K V} {maps}, MergedMap M maps m →
      (∀ b ∈ m.entries, b.1 ≠ e.1) →
        valuesAt maps e.1 = [] := by
    intro m maps h hne
    refine valuesAt_nil fun m' hm' hk => ?_
    have hmem : e.1 ∈ m.keys := (h.keys e.1).mpr ⟨m', hm', hk⟩
    rw [← m.map_fst_entries] at hmem
    obtain ⟨b, hb, heq⟩ := List.mem_map.mp hmem
    exact hne b hb heq
  rcases mem_mergeLoop hboth hs₁ hs₂ e he with ⟨v, v', hv, hv', heq⟩ | ⟨hmem, hne⟩ | ⟨hmem, hne⟩
  · rw [heq]
    exact hM (h₁.values _ hv) (h₂.values _ hv')
  · rw [hnone h₂ hne, List.append_nil]
    exact h₁.values e hmem
  · rw [hnone h₁ hne, List.nil_append]
    exact h₂.values e hmem

/-- When `M` determines the values, the result does not depend on how the maps were merged. -/
theorem MergedMap.unique {maps maps' : List (OrderedStaticMap K V)} {m m' : OrderedStaticMap K V}
    (hM : ∀ k, ∀ vs', (valuesAt maps k).Perm vs' → ∀ {v v'}, M (valuesAt maps k) v →
      M vs' v' → v = v')
    (hperm : maps.Perm maps') (h : MergedMap M maps m) (h' : MergedMap M maps' m') : m = m' := by
  have hkeys : m.keys = m'.keys := by
    refine List.Perm.eq_of_pairwise (fun a b _ _ hab hba => absurd hab (lt_asymm hba)) h.sorted
      h'.sorted ?_
    refine (List.perm_ext_iff_of_nodup h.sorted.nodup h'.sorted.nodup).mpr fun k => ?_
    rw [h.keys, h'.keys]
    simp only [hperm.mem_iff]
  have hentries : ∀ e e', e ∈ m.entries → e' ∈ m'.entries → e.1 = e'.1 → e = e' := by
    intro e e' he he' hk
    have hvalues := h'.values e' he'
    rw [← hk] at hvalues
    exact Prod.ext hk (hM e.1 _ (hperm.flatMap_right _) (h.values e he) hvalues)
  apply ext_entries
  have hlen : m.entries.length = m'.entries.length := by
    rw [← List.length_map Prod.fst, m.map_fst_entries, hkeys, ← m'.map_fst_entries, List.length_map]
  refine List.ext_getElem hlen fun i hi hi' =>
    hentries _ _ (List.getElem_mem hi) (List.getElem_mem hi') ?_
  have hk : (m.entries.map Prod.fst)[i]? = (m'.entries.map Prod.fst)[i]? := by
    rw [m.map_fst_entries, m'.map_fst_entries, hkeys]
  simpa [hi, hi'] using hk

end Nested

/-! ## The tree of merges -/

/-- What holds of the maps themselves and is closed under the merge holds of the result
of any interval, whatever the shape of the tree. -/
theorem mergeIntervalParallel_ok [MergeValues V]
    {P : List (OrderedStaticMap K V) → OrderedStaticMap K V → Prop}
    {maps : List (OrderedStaticMap K V)} (hnil : P [] (ofEntries []))
    (hsingle : ∀ m ∈ maps, P [m] m)
    (happend : ∀ {l₁ l₂ m₁ m₂}, P l₁ m₁ → P l₂ m₂ → P (l₁ ++ l₂) (merge m₁ m₂)) (first last k : Nat)
    (hlast : last ≤ maps.length) :
    ∃ m, mergeIntervalParallel maps first last k = .ok m ∧ P ((maps.take last).drop first) m := by
  rw [mergeIntervalParallel]
  split
  · rename_i hempty
    refine ⟨_, rfl, ?_⟩
    rwa [List.drop_eq_nil_of_le (by simp; omega)]
  rename_i hne
  split
  · rename_i hone
    have hlt : first < maps.length := by omega
    refine ⟨_, vecGet_lt hlt, ?_⟩
    have hinterval : (maps.take last).drop first = [maps[first]] := by
      rw [List.drop_take, hone, Nat.add_sub_cancel_left, List.drop_eq_getElem_cons hlt,
        List.take_succ_cons, List.take_zero]
    rw [hinterval]
    exact hsingle _ (List.getElem_mem hlt)
  rename_i hmany
  -- the halves, each by the induction on the length of the interval
  obtain ⟨m₁, hm₁, hP₁⟩ :=
    mergeIntervalParallel_ok hnil hsingle happend first ((first + last) / 2) k (by omega)
  obtain ⟨m₂, hm₂, hP₂⟩ :=
    mergeIntervalParallel_ok hnil hsingle happend ((first + last) / 2) last k hlast
  refine ⟨merge m₁ m₂, ?_, ?_⟩
  · rw [hm₁, hm₂]
    split <;> rfl
  have hsplit : (maps.take last).drop first =
      (maps.take ((first + last) / 2)).drop first ++
        (maps.take last).drop ((first + last) / 2) := by
    have htake : maps.take ((first + last) / 2) = (maps.take last).take ((first + last) / 2) := by
      rw [List.take_take, Nat.min_eq_left (by omega)]
    rw [htake]
    conv_lhs => rw [← List.take_append_drop ((first + last) / 2) (maps.take last)]
    rw [List.drop_append_of_le_length (by simp; omega)]
  rw [hsplit]
  exact happend hP₁ hP₂
  termination_by last - first

end OrderedStaticMap
end Argennon
