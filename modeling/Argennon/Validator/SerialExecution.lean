import Argennon.Validator.RequestTurns

/- The execution of programs one after the other, and their turns in another order.

   When a request waits for the end of the requests before it whose blocks collide with its own, it
   ends as in the serial execution, whatever the order of the turns; when all have ended, the heap
   is the same too (`turns_serializable`). -/
namespace Argennon

open RestrictedModifier Interleaving RequestState ChunkIndex ChunkInfo

/-- A request: its program, and the modifier that was built for it. -/
structure PreparedRequest where
  program : Program
  modifier : RestrictedModifier AccessBlock

/-- The requests of a block by their ids. -/
abbrev PreparedRequests := List PreparedRequest

namespace PreparedRequests

/-- The request of an id; there is nothing to do for an id that no request has. -/
def requestAt (requests : PreparedRequests) (id : Nat) : PreparedRequest :=
  requests.getD id { program := .ending (.ok 0), modifier := { appsAccessMaps := .empty } }

/-- One request after the other, until one fails: the status codes of the responses,
and the heap at the end. -/
def serialExecute (heap : Heap) : PreparedRequests → Except Exn (List Int × Heap)
  | [] => .ok ([], heap)
  | req :: rest =>
    match executeProgram heap req.modifier req.program with
    | (.error e, _) => .error e
    | (.ok statusCode, heap) => (serialExecute heap rest).map fun r => (statusCode :: r.1, r.2)

/-- The heap when the first `n` requests were executed one after the other,
whatever became of them. -/
def serialHeap (requests : PreparedRequests) (heap : Heap) : Nat → Heap
  | 0 => heap
  | n + 1 =>
    (executeProgram (serialHeap requests heap n) (requests.requestAt n).modifier
      (requests.requestAt n).program).2

/-- What becomes of the next request there. -/
def serialResult (requests : PreparedRequests) (heap : Heap) (n : Nat) : Except Exn Int :=
  (executeProgram (serialHeap requests heap n) (requests.requestAt n).modifier
    (requests.requestAt n).program).1

section
variable {req : PreparedRequest} {requests : PreparedRequests} {heap : Heap}

theorem serialHeap_cons : ∀ n, serialHeap (req :: requests) heap (n + 1) =
    serialHeap requests (executeProgram heap req.modifier req.program).2 n
  | 0 => rfl
  | n + 1 => by
    rw [serialHeap, serialHeap_cons n]
    rfl

theorem serialResult_cons (n : Nat) : serialResult (req :: requests) heap (n + 1) =
    serialResult requests (executeProgram heap req.modifier req.program).2 n := by
  unfold serialResult
  rw [serialHeap_cons]
  rfl

/-- The serial execution returns if no request fails. -/
theorem serialExecute_eq_ok_iff :
    ∀ {requests : PreparedRequests} {heap heap' : Heap} {statusCodes : List Int},
    serialExecute heap requests = .ok (statusCodes, heap') ↔
      (statusCodes.map Except.ok = (List.range requests.length).map (serialResult requests heap) ∧
        heap' = serialHeap requests heap requests.length)
  | [], heap, heap', statusCodes => by
    rw [serialExecute, Except.ok.injEq, Prod.mk.injEq, eq_comm, eq_comm (a := heap)]
    exact and_congr_left' List.map_eq_nil_iff.symm
  | req :: rest, heap, heap', statusCodes => by
    rw [serialExecute, List.length_cons, List.range_succ_eq_map, List.map_cons, List.map_map,
      serialHeap_cons]
    have htail : (serialResult (req :: rest) heap ∘ Nat.succ) =
        serialResult rest (executeProgram heap req.modifier req.program).2 :=
      funext serialResult_cons
    rw [htail]
    have hfirst : serialResult (req :: rest) heap 0 =
        (executeProgram heap req.modifier req.program).1 := rfl
    rw [hfirst]
    obtain ⟨e | statusCode, heap₁⟩ := executeProgram heap req.modifier req.program
    · refine iff_of_false nofun ?_
      rintro ⟨h, -⟩
      cases statusCodes with
      | nil => cases h
      | cons a l => cases (List.cons.inj h).1
    · have ih := @serialExecute_eq_ok_iff rest heap₁
      constructor
      · intro h
        cases hrest : serialExecute heap₁ rest with
        | error e =>
          simp only [hrest] at h
          cases h
        | ok r =>
          simp only [hrest] at h
          obtain ⟨rfl, rfl⟩ := Prod.mk.inj (Except.ok.inj h)
          obtain ⟨h1, h2⟩ := ih.mp hrest
          exact ⟨congrArg (Except.ok statusCode :: ·) h1, h2⟩
      · rintro ⟨h1, h2⟩
        cases statusCodes with
        | nil => cases h1
        | cons a l =>
          obtain ⟨ha, hl⟩ := List.cons.inj h1
          obtain rfl := Except.ok.inj ha
          simp only [ih.mpr ⟨hl, h2⟩]
          rfl

end
end PreparedRequests

open PreparedRequests

/-! ## Turns -/

/-- The heap, and where each request is. -/
abbrev Shared := Heap × (Nat → RequestState)

/-- The turn of a request. -/
def takeTurn (id : Nat) (s : Shared) : Shared :=
  (((s.2 id).turn s.1).2, Function.update s.2 id ((s.2 id).turn s.1).1)

/-- Before the first turn. -/
def Shared.start (requests : PreparedRequests) (heap : Heap) : Shared :=
  (heap, fun id => .running (requests.requestAt id).program (requests.requestAt id).modifier)

/-- The same heap, and the requests at the same places. -/
def Shared.Alike (s t : Shared) : Prop := s.1 = t.1 ∧ ∀ id, (s.2 id).Alike (t.2 id)

/-- The request has ended. -/
def Shared.Over (id : Nat) (s : Shared) : Prop := (s.2 id).Over

namespace Shared
variable {s : Shared} {i j : Nat}

theorem takeTurn_self (i : Nat) (s : Shared) : (takeTurn i s).2 i = ((s.2 i).turn s.1).1 :=
  Function.update_self _ _ _

theorem takeTurn_of_ne (h : i ≠ j) (s : Shared) : (takeTurn j s).2 i = s.2 i :=
  Function.update_of_ne h _ _

/-- A request that has ended stays as it is. -/
theorem takeTurn_ended {result : Except Exn Int} (h : s.2 i = .ended result) (j : Nat) :
    (takeTurn j s).2 i = .ended result := by
  obtain rfl | hne := eq_or_ne i j
  · rw [takeTurn_self, h]
    rfl
  · rwa [takeTurn_of_ne hne]

theorem over_takeTurn (i j : Nat) (s : Shared) (h : Over i s) : Over i (takeTurn j s) := by
  obtain ⟨result, hresult⟩ := RequestState.Over.eq h
  change ((takeTurn j s).2 i).Over
  rw [takeTurn_ended hresult j]
  trivial

theorem run_ended {result : Except Exn Int} (h : s.2 i = .ended result) :
    ∀ w : List Nat, (run takeTurn s w).2 i = .ended result
  | [] => h
  | j :: w => takeTurn_ended (run_ended h w) j

theorem takeTurn_iterate (i : Nat) (s : Shared) : ∀ k, (takeTurn i)^[k] s =
    (((s.2 i).turns s.1 k).2, Function.update s.2 i ((s.2 i).turns s.1 k).1)
  | 0 => by
    change s = (s.1, Function.update s.2 i (s.2 i))
    rw [Function.update_eq_self]
  | k + 1 => by
    rw [Function.iterate_succ_apply', takeTurn_iterate i s k]
    change (_, Function.update (Function.update _ _ _) _ _) = _
    rw [Function.update_idem]
    simp only [Function.update_self]
    rfl

/-- Every request ends if it has enough turns. -/
theorem exists_over (i : Nat) (s : Shared) : ∃ k, Over i ((takeTurn i)^[k] s) := by
  obtain ⟨k, hk⟩ := exists_turns s.1 (s.2 i)
  refine ⟨k, ?_⟩
  rw [takeTurn_iterate]
  change RequestState.Over (Function.update s.2 i _ i)
  rwa [Function.update_self]

/-- The requests that did not have a turn yet. -/
theorem serial_fresh (turns : Nat → Nat) (s : Shared) :
    ∀ {n i}, n ≤ i → (serial takeTurn turns s n).2 i = s.2 i
  | 0, _, _ => rfl
  | n + 1, i, h => by
    rw [serial, takeTurn_iterate]
    have hne : i ≠ n := by omega
    change Function.update _ n _ i = _
    rw [Function.update_of_ne hne]
    exact serial_fresh turns s (by omega)

/-- When the requests have their turns one after the other, and all end,
it is the serial execution. -/
theorem serial_over (requests : PreparedRequests) (heap : Heap) (turns : Nat → Nat) : ∀ n,
    (∀ i < n, Over i (serial takeTurn turns (start requests heap) n)) →
      (serial takeTurn turns (start requests heap) n).1 = serialHeap requests heap n ∧
        ∀ i < n, (serial takeTurn turns (start requests heap) n).2 i =
          .ended (serialResult requests heap i)
  | 0, _ => ⟨rfl, fun i hi => absurd hi (Nat.not_lt_zero i)⟩
  | n + 1, h => by
    rw [serial, takeTurn_iterate, serial_fresh turns _ (le_refl n)] at h ⊢
    have hprefix : ∀ i < n, Over i (serial takeTurn turns (start requests heap) n) := by
      intro i hi
      have hover := h i (Nat.lt_succ_of_lt hi)
      dsimp only [Over] at hover
      rwa [Function.update_of_ne hi.ne] at hover
    obtain ⟨hheap, hresults⟩ := serial_over requests heap turns n hprefix
    have hlast := h n (Nat.lt_succ_self n)
    dsimp only [Over] at hlast
    rw [Function.update_self] at hlast
    obtain ⟨result, hresult⟩ := hlast.eq
    rw [hheap] at hresult ⊢
    have hfinish := finish_of_ended (Prod.ext_iff.mpr ⟨hresult, rfl⟩)
    refine ⟨(congrArg Prod.snd hfinish).symm, fun i hi => ?_⟩
    obtain hi | rfl := Nat.lt_succ_iff_lt_or_eq.mp hi
    · exact (Function.update_of_ne hi.ne _ _).trans (hresults i hi)
    · refine (Function.update_self _ _ _).trans (hresult.trans ?_)
      exact congrArg RequestState.ended (congrArg Prod.fst hfinish).symm

end Shared

/-! ## The requests as processes -/

section
variable {index : ChunkIndex} {heap₀ : Heap} {Resized : FullID → Prop} {requests : PreparedRequests}
  {entries : Nat → List (FullID × List (Int × AccessBlockInfo))}

/-- Requests commute if the blocks that they have declared do not collide. -/
theorem requests_commuting
    (hp : ∀ i, Prepared index heap₀ Resized (entries i) (requests.requestAt i).modifier)
    (hdiscreet : ∀ i, (requests.requestAt i).program.Discreet (requests.requestAt i).modifier) :
    Commuting takeTurn (fun i j => Independent index (entries i) (entries j)) Shared.Alike (fun s =>
      HeapInBounds index heap₀ Resized s.1)
      (fun i s => s.2 i = .running (requests.requestAt i).program (requests.requestAt i).modifier)
      (fun i s => StateReady index heap₀ Resized (entries i) (requests.requestAt i).modifier s.1
        (s.2 i)) where
  refl s := ⟨rfl, fun id => .refl _⟩
  trans h h' := ⟨h.1.trans h'.1, fun id => (h.2 id).trans (h'.2 id)⟩
  symm h := h.symm
  start {i s} _ hfresh := by
    rw [hfresh]
    exact ⟨(hp i).start s.1, hdiscreet i⟩
  fresh hne hfresh := (Function.update_of_ne hne _ _).trans hfresh
  good hgood hready := hready.inBounds hgood
  own {i s} _ hready := by
    rw [Shared.takeTurn_self]
    exact hready.own (hp i)
  other {i j s} hne hind hgood hready hready' := by
    rw [Shared.takeTurn_of_ne hne]
    exact hready.frame (hready'.agree (hp i) hind hgood)
  congr {i s t} _ _ hready hready' halike := by
    obtain ⟨hheap, hstates⟩ := halike
    rw [← hheap] at hready'
    obtain ⟨hstate, hheap'⟩ := hready.congr (hp i) hready' (hstates i)
    rw [hheap] at hstate hheap'
    refine ⟨?_, fun id => ?_⟩
    · change ((s.2 i).turn s.1).2 = ((t.2 i).turn t.1).2
      rw [hheap, hheap']
    · obtain rfl | hne := eq_or_ne id i
      · rw [Shared.takeTurn_self, Shared.takeTurn_self, hheap]
        exact hstate
      · rw [Shared.takeTurn_of_ne hne, Shared.takeTurn_of_ne hne]
        exact hstates id
  swap {i j s} hne hind hgood hready hready' := by
    refine ⟨?_, fun id => ?_⟩
    · change (RequestState.turn _ ((takeTurn j s).2 i)).2 =
        (RequestState.turn _ ((takeTurn i s).2 j)).2
      rw [Shared.takeTurn_of_ne hne, Shared.takeTurn_of_ne hne.symm]
      exact hready.heap_comm hind hgood hready'
    · obtain rfl | hi := eq_or_ne id i
      · rw [Shared.takeTurn_self, Shared.takeTurn_of_ne hne, Shared.takeTurn_of_ne hne,
          Shared.takeTurn_self]
        exact (hready.next_alike (hp id) hind hgood hready').symm
      rw [Shared.takeTurn_of_ne hi]
      obtain rfl | hj := eq_or_ne id j
      · rw [Shared.takeTurn_self, Shared.takeTurn_self, Shared.takeTurn_of_ne hi]
        exact hready'.next_alike (hp id) hind.symm hgood hready
      · rw [Shared.takeTurn_of_ne hj, Shared.takeTurn_of_ne hj, Shared.takeTurn_of_ne hi]
        exact .refl _

/-- **Turns are serializable.** The requests wait for the end of the requests before them whose
blocks collide with their own. A request that has ended has ended as in the serial execution, and
when all have ended the heap is the same. -/
theorem turns_serializable
    (hp : ∀ i, Prepared index heap₀ Resized (entries i) (requests.requestAt i).modifier)
    (hdiscreet : ∀ i, (requests.requestAt i).program.Discreet (requests.requestAt i).modifier)
    (hheap : HeapInBounds index heap₀ Resized heap₀) {w : List Nat}
    (hw : Permitted takeTurn (fun i j => Independent index (entries i) (entries j)) Shared.Over
      (Shared.start requests heap₀) w)
    (hlt : ∀ i ∈ w, i < requests.length) :
    (∀ i < requests.length, ∀ result, (run takeTurn (Shared.start requests heap₀) w).2 i =
      .ended result →
        result = requests.serialResult heap₀ i) ∧
      ((∀ i < requests.length, Shared.Over i (run takeTurn (Shared.start requests heap₀) w)) →
        (run takeTurn (Shared.start requests heap₀) w).1 =
        requests.serialHeap heap₀ requests.length) := by
  have hc := requests_commuting hp hdiscreet
  obtain ⟨rest, hrest, hover, hsame, hstates⟩ :=
    hc.serialization Shared.over_takeTurn Shared.exists_over
    (s := Shared.start requests heap₀) hheap (fun i => rfl) hw hlt
  have hserial : ∀ i < requests.length,
      Shared.Over i (serial takeTurn (rest ++ w).count (Shared.start requests heap₀)
        requests.length) := by
    intro i hi
    have halike := hstates i
    obtain ⟨result, hresult⟩ := RequestState.Over.eq (hover i hi)
    rw [hresult] at halike
    unfold Shared.Over
    rw [halike.eq_ended]
    trivial
  obtain ⟨hheap', hresults⟩ := Shared.serial_over requests heap₀ _ requests.length hserial
  have happend : ∀ l : List Nat, run takeTurn (Shared.start requests heap₀) (l ++ w) =
      run takeTurn (run takeTurn (Shared.start requests heap₀) w) l := by
    intro l
    induction l with
    | nil => rfl
    | cons i l ih => exact congrArg (takeTurn i) ih
  refine ⟨fun i hi result hresult => ?_, fun hall => ?_⟩
  · have halike := hstates i
    rw [happend, Shared.run_ended hresult rest] at halike
    exact (RequestState.ended.inj ((hresults i hi).symm.trans halike.eq_ended)).symm
  · obtain rfl : rest = [] := by
      rw [List.eq_nil_iff_forall_not_mem]
      exact fun i hi => (hrest i hi).2 (hall i (hrest i hi).1)
    exact hsame.trans hheap'

end
end Argennon
